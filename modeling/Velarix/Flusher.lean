import Velarix.Bucket.Averages

/-! The flush pipeline: `Flusher::flush` as a task whose lock-protected steps interleave with those
of the other tasks spawned by `flush_handler`. -/
namespace Velarix
open Io SSTable Relation

/-- `Ord for Vec<u8>` as `≤`. -/
def keyLe (a b : Key) : Prop := ¬ keyLt b a

instance : DecidableRel keyLe := fun _ _ => inferInstanceAs (Decidable (¬ _))

/-- Modelled from the spec: a memtable's bloom filter, built from its keys, and the
`SSTablePath` bound into it by the flush. Membership is exact: a bloom filter has no false
negatives, and its false positives are not modelled. -/
structure BloomFilter where
  keys : List Key
  sstablePath : Option SSTablePath

namespace BloomFilter

def setSstablePath (b : BloomFilter) (p : SSTablePath) : BloomFilter := { b with sstablePath := some p }

/-- `get_sstable_path().get_hotness()`: the hotness the filter holds its own copy of. -/
def hotness (b : BloomFilter) : Nat := (b.sstablePath.map SSTablePath.hotness).getD 0

end BloomFilter

/-- Inserts `b` before the first filter no hotter than it. -/
def insertByHotness (b : BloomFilter) : List BloomFilter → List BloomFilter
  | [] => [b]
  | c :: cs => if c.hotness ≤ b.hotness then b :: c :: cs else c :: insertByHotness b cs

/-- `sort_by(|a, b| b.hotness.cmp(&a.hotness))`: a stable sort, hottest first. -/
def sortByHotness : List BloomFilter → List BloomFilter
  | [] => []
  | b :: bs => insertByHotness b (sortByHotness bs)

theorem perm_insertByHotness (b : BloomFilter) : ∀ l, (insertByHotness b l).Perm (b :: l)
  | [] => .refl _
  | c :: cs => by
    unfold insertByHotness
    split
    · exact .refl _
    · exact ((perm_insertByHotness b cs).cons c).trans (.swap b c cs)

theorem perm_sortByHotness : ∀ l, (sortByHotness l).Perm l
  | [] => .nil
  | b :: bs => (perm_insertByHotness b _).trans ((perm_sortByHotness bs).cons b)

/-- Modelled from the spec: `KeyRange`, the entries (data file, smallest key, biggest key,
handle). -/
structure KeyRange where
  entries : List (Path × Key × Key × SSTablePath)

/-- `KeyRange::set` replaces the entry of a data file present, and otherwise adds one. -/
def KeyRange.set (r : KeyRange) (p : Path) (smallest biggest : Key) (h : SSTablePath) : KeyRange :=
  if r.entries.any (·.1 = p) then ⟨r.entries.map fun x => if x.1 = p then (p, smallest, biggest, h) else x⟩
  else ⟨r.entries ++ [(p, smallest, biggest, h)]⟩

theorem KeyRange.mem_set_self (r : KeyRange) (p : Path) (smallest biggest : Key) (h : SSTablePath) :
    (p, smallest, biggest, h) ∈ (r.set p smallest biggest h).entries := by
  unfold KeyRange.set
  split
  · next hany =>
    obtain ⟨x, hx, hxp⟩ := List.any_eq_true.mp hany
    exact List.mem_map.mpr ⟨x, hx, by simp only [decide_eq_true_eq] at hxp; simp [hxp]⟩
  · exact List.mem_append_right _ (List.mem_singleton_self _)

theorem KeyRange.mem_set_of_ne {r : KeyRange} {p : Path} {smallest biggest : Key} {h : SSTablePath}
    {x : Path × Key × Key × SSTablePath} (hx : x ∈ r.entries) (hxp : x.1 ≠ p) :
    x ∈ (r.set p smallest biggest h).entries := by
  unfold KeyRange.set
  split
  · exact List.mem_map.mpr ⟨x, hx, by simp [hxp]⟩
  · exact List.mem_append_left _ hx

namespace Memtable

def keys (mt : Memtable) : List Key := mt.index.toList.map Prod.fst

/-- Modelled from the spec: `find_smallest_key`, the first key, as `SSTable::find_smallest_key`
takes it. -/
def findSmallestKey (mt : Memtable) : Except StorageEngineError Key :=
  match mt.index.toList.head? with
  | some e => .ok e.1
  | none => .error .lowestKeyIndexError

/-- Modelled from the spec: `find_biggest_key`, the last key. -/
def findBiggestKey (mt : Memtable) : Except StorageEngineError Key :=
  match mt.index.toList.getLast? with
  | some e => .ok e.1
  | none => .error .biggestKeyIndexError

/-- Modelled from the spec: the bloom filter the memtable carries, built from its keys. -/
def bloomFilter (mt : Memtable) : BloomFilter := ⟨mt.keys, none⟩

theorem findSmallestKey_le {mt : Memtable} {s : Key} (h : mt.findSmallestKey = .ok s) {k : Key}
    (hk : k ∈ mt.keys) : keyLe s k := by
  unfold findSmallestKey at h
  split at h
  · next e he =>
    cases h
    obtain ⟨es, hes⟩ := List.head?_eq_some_iff.mp he
    have hasc := mt.index.ascending
    rw [Ascending, hes, List.pairwise_cons] at hasc
    obtain ⟨x, hx, rfl⟩ := List.mem_map.mp hk
    rw [hes, List.mem_cons] at hx
    rcases hx with rfl | hx
    · exact keyLt_irrefl _
    · exact keyLt_asymm (hasc.1 x hx)
  · cases h

theorem le_findBiggestKey {mt : Memtable} {b : Key} (h : mt.findBiggestKey = .ok b) {k : Key}
    (hk : k ∈ mt.keys) : keyLe k b := by
  unfold findBiggestKey at h
  split at h
  · next e he =>
    cases h
    obtain ⟨es, hes⟩ := List.getLast?_eq_some_iff.mp he
    have hasc := mt.index.ascending
    rw [Ascending, hes, List.pairwise_append] at hasc
    obtain ⟨x, hx, rfl⟩ := List.mem_map.mp hk
    rw [hes, List.mem_append, List.mem_singleton] at hx
    rcases hx with hx | rfl
    · exact keyLt_asymm (hasc.2.2 x hx e (List.mem_singleton_self _))
    · exact keyLt_irrefl _
  · cases h

end Memtable

abbrev MemtableId := Bytes

/-- Where a flush task stands; each constructor names the step it takes next. The bucket
insertion also reads the table's smallest and biggest keys, which step 4 registers. -/
inductive Phase where
  | start
  | inserted (p : SSTablePath) (smallest biggest : Key)
  | ranged (p : SSTablePath)
  | pushed (p : SSTablePath)
  | sorted (p : SSTablePath)
  | removed (p : SSTablePath)
  | failed
  deriving DecidableEq, Repr

namespace Phase

/-- The table's path, once it is written. -/
def path : Phase → Option SSTablePath
  | inserted p _ _ | ranged p | pushed p | sorted p | removed p => some p
  | start | failed => none

/-- How many of the five steps have been taken; a failed flush took none. -/
def stage : Phase → Nat
  | start | failed => 0
  | inserted .. => 1
  | ranged _ => 2
  | pushed _ => 3
  | sorted _ => 4
  | removed _ => 5

end Phase

structure Task where
  table : Memtable
  phase : Phase

/-- The engine as the flush tasks share it: the read-only memtable registry, the bucket map with
the disk, the bloom-filter list and KeyRange, and the task flushing each registered memtable. -/
structure Engine where
  readOnlyMemtables : List (MemtableId × Memtable)
  store : MapState
  bloomFilters : List BloomFilter
  keyRange : KeyRange
  tasks : MemtableId → Option Task

namespace Engine

/-- An empty engine under `dir` whose registry holds `tables`, a flush task started for each. -/
def init (dir : Path) (w : World) (clock : Nat) (tables : List (MemtableId × Memtable)) : Engine :=
  ⟨tables, MapState.init dir w clock, [], ⟨[]⟩,
    fun id => (tables.find? (·.1 = id)).map fun e => ⟨e.2, .start⟩⟩

def setPhase (e : Engine) (id : MemtableId) (t : Task) (phase : Phase) : Engine :=
  { e with tasks := fun id' => if id' = id then some { t with phase } else e.tasks id' }

/-- The next step of task `id`. Steps 1 to 3 of `flush`: an empty table is refused, the keys are
read, and the table goes into a bucket at hotness 1 under the bucket map's write lock, taking the
clock reading `now` and the uuid `bucketId`. Step 4 sets the table's KeyRange entry; steps 5
and 6 bind the path into the table's bloom filter and push it, then sort the list by hotness.
On success `flush_handler` removes the memtable from the registry. -/
def advance (e : Engine) (id : MemtableId) (bucketId : Uuid) (now : Nat) : Engine :=
  match e.tasks id with
  | none => e
  | some t =>
    match t.phase with
    | .start =>
      if t.table.index.toList = [] then e.setPhase id t .failed
      else
        match t.table.findBiggestKey, t.table.findSmallestKey with
        | .ok biggest, .ok smallest =>
          match e.store.insertedPath t.table 1 bucketId now with
          | some p => { e.setPhase id t (.inserted p smallest biggest) with
              store := e.store.insert t.table 1 bucketId now }
          | none => { e.setPhase id t .failed with store := e.store.insert t.table 1 bucketId now }
        | _, _ => e.setPhase id t .failed
    | .inserted p smallest biggest =>
      { e.setPhase id t (.ranged p) with keyRange := e.keyRange.set p.filePath smallest biggest p }
    | .ranged p =>
      { e.setPhase id t (.pushed p) with
        bloomFilters := e.bloomFilters ++ [t.table.bloomFilter.setSstablePath p] }
    | .pushed p => { e.setPhase id t (.sorted p) with bloomFilters := sortByHotness e.bloomFilters }
    | .sorted p =>
      { e.setPhase id t (.removed p) with
        readOnlyMemtables := e.readOnlyMemtables.filter (·.1 ≠ id) }
    | .removed _ | .failed => e

/-- Any task takes its next step; `tick` relates the last clock reading to the one taken. -/
inductive Step (tick : Nat → Nat → Prop) : Engine → Engine → Prop
  | advance (e : Engine) (id : MemtableId) (bucketId : Uuid) (now : Nat) :
      tick e.store.clock now → Step tick e (e.advance id bucketId now)

/-- The step of task `id` at the clock reading after the last one taken. -/
def tick (e : Engine) (id : MemtableId) (bucketId : Uuid) : Engine :=
  e.advance id bucketId (e.store.clock + 1)

/-- Tasks stepping in the order given, each at the clock reading after the last. -/
def runSchedule (e : Engine) : List (MemtableId × Uuid) → Engine
  | [] => e
  | (id, bucketId) :: rest => (e.tick id bucketId).runSchedule rest

theorem reachable_runSchedule : ∀ (e : Engine) (sched : List (MemtableId × Uuid)),
    ReflTransGen (Step (· < ·)) e (e.runSchedule sched)
  | _, [] => .refl
  | e, (id, bucketId) :: rest =>
    .head (.advance e id bucketId _ (Nat.lt_succ_self _)) (reachable_runSchedule _ rest)

/-- Where a reader finds key `k` of memtable `mt`: in a memtable still in the registry, or within
the range KeyRange records for a data file whose bloom filter holds `k` and whose file holds the
table written from `mt`. -/
def Findable (e : Engine) (mt : Memtable) (k : Key) : Prop :=
  (∃ r ∈ e.readOnlyMemtables, k ∈ r.2.keys) ∨
    ∃ x ∈ e.keyRange.entries, keyLe x.2.1 k ∧ keyLe k x.2.2.1 ∧
      (∃ b ∈ e.bloomFilters, b.sstablePath.map SSTablePath.filePath = some x.1 ∧ k ∈ b.keys) ∧
      e.store.world.fs.files x.1 = some (dataBytes mt.index)

instance (e : Engine) (mt : Memtable) (k : Key) : Decidable (e.Findable mt k) :=
  inferInstanceAs (Decidable (_ ∨ _))

/-- What task `id` has made sure of, step by step: until it is removed its memtable is in the
registry; the keys it read are its table's; once inserted, its data file is held and was written
from its memtable; after step 4 its KeyRange entry is there, and after step 6 its bloom filter. -/
structure TaskOk (e : Engine) (id : MemtableId) (t : Task) : Prop where
  registered : t.phase.stage < 5 → (id, t.table) ∈ e.readOnlyMemtables
  keys : ∀ p smallest biggest, t.phase = .inserted p smallest biggest →
    t.table.findSmallestKey = .ok smallest ∧ t.table.findBiggestKey = .ok biggest
  written : ∀ p, t.phase.path = some p →
    p.filePath ∈ e.store.map.paths ∧ e.store.written p.filePath = some t.table.index
  ranged : ∀ p, t.phase.path = some p → 2 ≤ t.phase.stage → ∃ smallest biggest,
    t.table.findSmallestKey = .ok smallest ∧ t.table.findBiggestKey = .ok biggest ∧
      (p.filePath, smallest, biggest, p) ∈ e.keyRange.entries
  pushed : ∀ p, t.phase.path = some p → 3 ≤ t.phase.stage →
    t.table.bloomFilter.setSstablePath p ∈ e.bloomFilters

/-- What the flush tasks keep together: the store's data files apart and present, each task's
own facts, and no data file written by two tasks. -/
structure Consistent (e : Engine) : Prop where
  separated : Separated e.store
  settled : Settled e.store
  tasks : ∀ id t, e.tasks id = some t → TaskOk e id t
  apart : ∀ id id' t t' p p', e.tasks id = some t → e.tasks id' = some t' → id ≠ id' →
    t.phase.path = some p → t'.phase.path = some p' → p.filePath ≠ p'.filePath

theorem TaskOk.file {e : Engine} {id : MemtableId} {t : Task} (hs : Separated e.store)
    (hset : Settled e.store) (h : TaskOk e id t) {p : SSTablePath} (hp : t.phase.path = some p) :
    p.filePath ∈ e.store.map.paths ∧
      e.store.world.fs.files p.filePath = some (dataBytes t.table.index) := by
  obtain ⟨hheld, hwr⟩ := h.written p hp
  obtain ⟨E, hE, hc⟩ := hs.contents _ hheld
  rw [hwr, Option.some.injEq] at hE
  subst hE
  exact ⟨hheld, hc.resolve_right fun hn => by simpa [hn] using hset.files _ hheld⟩

theorem TaskOk.findable {e : Engine} {id : MemtableId} {t : Task} (hs : Separated e.store)
    (hset : Settled e.store) (h : TaskOk e id t) {k : Key} (hk : k ∈ t.table.keys) :
    e.Findable t.table k := by
  by_cases hst : t.phase.stage < 5
  · exact .inl ⟨_, h.registered hst, hk⟩
  obtain ⟨p, hp, h5⟩ : ∃ p, t.phase.path = some p ∧ 5 ≤ t.phase.stage := by
    cases hph : t.phase <;> simp_all [Phase.stage, Phase.path]
  obtain ⟨smallest, biggest, hs', hb', hx⟩ := h.ranged p hp (by omega)
  exact .inr ⟨_, hx, Memtable.findSmallestKey_le hs' hk, Memtable.le_findBiggestKey hb' hk,
    ⟨_, h.pushed p hp (by omega), rfl, hk⟩, (h.file hs hset hp).2⟩

theorem TaskOk.frame {e e' : Engine} {id : MemtableId} {t : Task} (h : TaskOk e id t)
    (hreg : ∀ x ∈ e.readOnlyMemtables, x.1 = id → x ∈ e'.readOnlyMemtables)
    (hheld : ∀ q ∈ e.store.map.paths, q ∈ e'.store.map.paths ∧ e'.store.written q = e.store.written q)
    (hrange : ∀ x ∈ e.keyRange.entries, (∃ p, t.phase.path = some p ∧ x.1 = p.filePath) →
      x ∈ e'.keyRange.entries)
    (hbloom : ∀ b ∈ e.bloomFilters, b ∈ e'.bloomFilters) : TaskOk e' id t where
  registered hs := hreg _ (h.registered hs) rfl
  keys := h.keys
  written p hp :=
    have ⟨hm, hw⟩ := h.written p hp
    have ⟨hm', hw'⟩ := hheld _ hm
    ⟨hm', hw'.trans hw⟩
  ranged p hp h2 :=
    have ⟨smallest, biggest, hs, hb, hx⟩ := h.ranged p hp h2
    ⟨smallest, biggest, hs, hb, hrange _ hx ⟨p, hp, rfl⟩⟩
  pushed p hp h3 := hbloom _ (h.pushed p hp h3)

theorem setPhase_tasks {e : Engine} {id id' : MemtableId} {t t' : Task} {phase : Phase}
    (h : (e.setPhase id t phase).tasks id' = some t') :
    (id' = id ∧ t' = { t with phase }) ∨ (id' ≠ id ∧ e.tasks id' = some t') := by
  unfold setPhase at h
  dsimp only at h
  split at h
  · exact .inl ⟨‹_›, (Option.some.inj h).symm⟩
  · exact .inr ⟨‹_›, h⟩

theorem Consistent.step {e e' : Engine} (h : e.Consistent) {id : MemtableId} {t : Task}
    (ht : e.tasks id = some t) {phase : Phase} (htasks : e'.tasks = (e.setPhase id t phase).tasks)
    (hsep : Separated e'.store) (hset : Settled e'.store)
    (hreg : ∀ x ∈ e.readOnlyMemtables, x.1 ≠ id → x ∈ e'.readOnlyMemtables)
    (hheld : ∀ q ∈ e.store.map.paths, q ∈ e'.store.map.paths ∧ e'.store.written q = e.store.written q)
    (hrange : ∀ x ∈ e.keyRange.entries, (∀ p, t.phase.path = some p → x.1 ≠ p.filePath) →
      x ∈ e'.keyRange.entries)
    (hbloom : ∀ b ∈ e.bloomFilters, b ∈ e'.bloomFilters) (hself : TaskOk e' id { t with phase })
    (hpath : ∀ p, phase.path = some p → ∀ id' t' p', id' ≠ id → e.tasks id' = some t' →
      t'.phase.path = some p' → p.filePath ≠ p'.filePath) :
    e'.Consistent where
  separated := hsep
  settled := hset
  tasks id' t' h' := by
    rw [htasks] at h'
    rcases setPhase_tasks h' with ⟨rfl, rfl⟩ | ⟨hne, h'⟩
    · exact hself
    · refine (h.tasks id' t' h').frame (fun x hx hx1 => hreg x hx (hx1 ▸ hne)) hheld
        (fun x hx ⟨p', hp', hxp⟩ => hrange x hx fun p hp => hxp ▸ h.apart id' id t' t p' p h' ht hne hp' hp)
        hbloom
  apart a b ta tb pa pb ha hb hab hpa hpb := by
    rw [htasks] at ha hb
    rcases setPhase_tasks ha with ⟨rfl, rfl⟩ | ⟨hna, ha'⟩ <;>
      rcases setPhase_tasks hb with ⟨rfl, rfl⟩ | ⟨hnb, hb'⟩
    · exact absurd rfl hab
    · exact hpath pa hpa b tb pb hnb hb' hpb
    · exact (hpath pb hpb a ta pa hna ha' hpa).symm
    · exact h.apart a b ta tb pa pb ha' hb' hab hpa hpb

theorem Consistent.step_same_store {e e' : Engine} (h : e.Consistent) {id : MemtableId} {t : Task}
    (ht : e.tasks id = some t) {phase : Phase} (htasks : e'.tasks = (e.setPhase id t phase).tasks)
    (hstore : e'.store = e.store)
    (hreg : ∀ x ∈ e.readOnlyMemtables, x.1 ≠ id → x ∈ e'.readOnlyMemtables)
    (hrange : ∀ x ∈ e.keyRange.entries, (∀ p, t.phase.path = some p → x.1 ≠ p.filePath) →
      x ∈ e'.keyRange.entries)
    (hbloom : ∀ b ∈ e.bloomFilters, b ∈ e'.bloomFilters) (hself : TaskOk e' id { t with phase })
    (hpath : ∀ p, phase.path = some p → ∀ id' t' p', id' ≠ id → e.tasks id' = some t' →
      t'.phase.path = some p' → p.filePath ≠ p'.filePath) :
    e'.Consistent :=
  h.step ht htasks (hstore ▸ h.separated) (hstore ▸ h.settled) hreg
    (fun q hq => by rw [hstore]; exact ⟨hq, rfl⟩) hrange hbloom hself hpath

theorem Consistent.advance {e : Engine} (h : e.Consistent) (id : MemtableId) (bucketId : Uuid)
    {now : Nat} (hnow : e.store.clock < now) : (e.advance id bucketId now).Consistent := by
  unfold Engine.advance
  split
  · exact h
  next t ht =>
  have hok := h.tasks id t ht
  have hfailed : t.phase = .start → ∀ e' : Engine, e'.readOnlyMemtables = e.readOnlyMemtables →
      TaskOk e' id { t with phase := .failed } := fun hst e' hreg =>
    { registered := fun _ => hreg ▸ hok.registered (by simp [hst, Phase.stage])
      keys := fun _ _ _ h => by cases h
      written := fun _ h => by cases h
      ranged := fun _ h => by cases h
      pushed := fun _ h => by cases h }
  have hsame : ∀ phase : Phase, phase.path = t.phase.path → ∀ p, phase.path = some p →
      ∀ id' t' p', id' ≠ id → e.tasks id' = some t' → t'.phase.path = some p' →
        p.filePath ≠ p'.filePath :=
    fun _ he p hp id' t' p' hne ht' hp' => h.apart id id' t t' p p' ht ht' hne.symm (he ▸ hp) hp'
  split
  · next hst =>
    have hfail : (e.setPhase id t .failed).Consistent :=
      h.step_same_store ht rfl rfl (fun x hx _ => hx) (fun x hx _ => hx) (fun b hb => hb)
        (hfailed hst _ rfl) (fun _ hp => by cases hp)
    split
    · exact hfail
    split
    · next biggest smallest hb hs =>
      have hsep := h.separated.insert t.table 1 bucketId hnow
      have hset := h.settled.insert h.separated t.table 1 bucketId hnow
      have hheld := h.separated.insert_keeps_held t.table 1 bucketId hnow
      split
      · next p hp =>
        obtain ⟨-, -, -, -, -, ⟨hnone, -⟩ | ⟨p', hstamp, hpaths, -, -, -, hw, ⟨hp', -⟩ | ⟨hnone, -⟩⟩⟩ :=
          h.separated.insert_cases t.table 1 bucketId hnow rfl
        · rw [hnone] at hp
          cases hp
        swap
        · rw [hnone] at hp
          cases hp
        rw [hp, Option.some.injEq] at hp'
        subst hp'
        have hmem := hpaths.mem_iff.mpr (List.mem_append_right _ (List.mem_singleton_self _))
        have hwr : (e.store.insert t.table 1 bucketId now).written p.filePath = some t.table.index := by
          rw [hw, MapState.record, if_pos rfl]
        refine h.step ht rfl hsep hset (fun x hx _ => hx) hheld (fun x hx _ => hx) (fun b hb => hb)
          ⟨fun _ => hok.registered (by simp [hst, Phase.stage]), ?_, ?_, ?_, ?_⟩ ?_
        · intro p' s' b' he
          cases he
          exact ⟨hs, hb⟩
        · intro p' hp'
          cases hp'
          exact ⟨hmem, hwr⟩
        · intro _ _ h2
          exact absurd h2 (by simp [Phase.stage])
        · intro _ _ h3
          exact absurd h3 (by simp [Phase.stage])
        · intro p' hp' id' t' p'' _ ht' hp''
          cases hp'
          obtain ⟨u, hu, hq⟩ := h.separated.stamped _ ((h.tasks id' t' ht').written p'' hp'').1
          intro he
          rw [← he, hstamp, Option.some.injEq] at hq
          omega
      · exact h.step ht rfl hsep hset (fun x hx _ => hx) hheld (fun x hx _ => hx) (fun b hb => hb)
          (hfailed hst _ rfl) (fun _ hp => by cases hp)
    · exact hfail
  · next p smallest biggest hph =>
    obtain ⟨hs, hb⟩ := hok.keys p smallest biggest hph
    refine h.step_same_store ht rfl rfl (fun x hx _ => hx)
      (fun x hx hx' => KeyRange.mem_set_of_ne hx (hx' p (by rw [hph]; rfl))) (fun b hb => hb)
      ⟨fun _ => hok.registered (by simp [hph, Phase.stage]), fun _ _ _ he => (by cases he),
        fun p' hp' => hok.written p' (by rw [hph]; exact hp'), fun p' hp' _ => ?_,
        fun _ _ h3 => absurd h3 (by simp [Phase.stage])⟩
      (hsame _ (by rw [hph]; rfl))
    obtain rfl : p = p' := Option.some.inj hp'
    exact ⟨smallest, biggest, hs, hb, KeyRange.mem_set_self _ _ _ _ _⟩
  · next p hph =>
    refine h.step_same_store ht rfl rfl (fun x hx _ => hx) (fun x hx _ => hx)
      (fun b hb => List.mem_append_left _ hb)
      ⟨fun _ => hok.registered (by simp [hph, Phase.stage]), fun _ _ _ he => (by cases he),
        fun p' hp' => hok.written p' (by rw [hph]; exact hp'),
        fun p' hp' _ => hok.ranged p' (by rw [hph]; exact hp') (by simp [hph, Phase.stage]),
        fun p' hp' _ => ?_⟩
      (hsame _ (by rw [hph]; rfl))
    obtain rfl : p = p' := Option.some.inj hp'
    exact List.mem_append_right _ (List.mem_singleton_self _)
  · next p hph =>
    exact h.step_same_store ht rfl rfl (fun x hx _ => hx) (fun x hx _ => hx)
      (fun b hb => (perm_sortByHotness _).mem_iff.mpr hb)
      ⟨fun _ => hok.registered (by simp [hph, Phase.stage]), fun _ _ _ he => (by cases he),
        fun p' hp' => hok.written p' (by rw [hph]; exact hp'),
        fun p' hp' _ => hok.ranged p' (by rw [hph]; exact hp') (by simp [hph, Phase.stage]),
        fun p' hp' _ => (perm_sortByHotness _).mem_iff.mpr
          (hok.pushed p' (by rw [hph]; exact hp') (by simp [hph, Phase.stage]))⟩
      (hsame _ (by rw [hph]; rfl))
  · next p hph =>
    exact h.step_same_store ht rfl rfl
      (fun x hx hne => List.mem_filter.mpr ⟨hx, by simpa using hne⟩) (fun x hx _ => hx) (fun b hb => hb)
      ⟨fun h5 => absurd h5 (by simp [Phase.stage]), fun _ _ _ he => (by cases he),
        fun p' hp' => hok.written p' (by rw [hph]; exact hp'),
        fun p' hp' _ => hok.ranged p' (by rw [hph]; exact hp') (by simp [hph, Phase.stage]),
        fun p' hp' _ => hok.pushed p' (by rw [hph]; exact hp') (by simp [hph, Phase.stage])⟩
      (hsame _ (by rw [hph]; rfl))
  · exact h
  · exact h

theorem Consistent.init (dir : Path) {w : World} {clock : Nat} (hf : w.faults = [])
    (hfresh : ∀ q t, q.stamp = some t → clock < t → w.fs.files q = none)
    (tables : List (MemtableId × Memtable)) : (Engine.init dir w clock tables).Consistent where
  separated := Separated.init dir hf hfresh
  settled := Settled.init dir w clock
  tasks id t h := by
    obtain ⟨x, hx, rfl⟩ := Option.map_eq_some'.mp h
    have hid : x.1 = id := by simpa using List.find?_some hx
    refine ⟨fun _ => ?_, fun _ _ _ he => (by cases he), fun _ hp => (by cases hp),
      fun _ hp => (by cases hp), fun _ hp => (by cases hp)⟩
    rw [← hid]
    exact List.mem_of_find?_eq_some hx
  apart _ _ t _ _ _ h _ _ hp _ := by
    obtain ⟨x, -, rfl⟩ := Option.map_eq_some'.mp h
    cases hp

theorem Consistent.of_reachable {e₀ e : Engine} (h₀ : e₀.Consistent)
    (hrun : ReflTransGen (Step (· < ·)) e₀ e) : e.Consistent := by
  induction hrun with
  | refl => exact h₀
  | tail _ hstep ih =>
    cases hstep with
    | advance id bucketId now hnow => exact ih.advance id bucketId hnow

theorem advance_clock (e : Engine) (id : MemtableId) (bucketId : Uuid) (now : Nat) :
    (e.advance id bucketId now).store.clock = e.store.clock ∨
      (e.advance id bucketId now).store.clock = now := by
  unfold Engine.advance
  split
  · exact .inl rfl
  split
  · split
    · exact .inl rfl
    split
    · split <;> exact .inr (MapState.insert_clock ..)
    · exact .inl rfl
  all_goals exact .inl rfl

/-- Tasks stepping in the order given, all at the clock reading `now`. -/
def runAt (e : Engine) (now : Nat) : List (MemtableId × Uuid) → Engine
  | [] => e
  | (id, bucketId) :: rest => (e.advance id bucketId now).runAt now rest

theorem reachable_runAt (now : Nat) : ∀ (e : Engine) (sched : List (MemtableId × Uuid)),
    e.store.clock ≤ now → ReflTransGen (Step (· ≤ ·)) e (e.runAt now sched)
  | _, [], _ => .refl
  | e, (id, bucketId) :: rest, h =>
    .head (.advance e id bucketId now h) (reachable_runAt now _ rest
      (by rcases advance_clock e id bucketId now with h' | h' <;> omega))

end Engine

/-- A memtable of one entry under key `[2]`. -/
def keyTwo : Memtable := ⟨⟨[([2], 0, 0, false)], List.pairwise_singleton _ _⟩, 18⟩

def twoTables : List (MemtableId × Memtable) := [([1], oneEntry), ([2], keyTwo)]

/-- Both memtables flushed in the same millisecond, their tasks' steps alternating. Both tables go
into one bucket under one path; the second `KeyRange::set` replaces the first table's range by
`[2]..[2]`, the only range left, and both memtables leave the registry: no range and no memtable
holds key `[1]`. -/
theorem same_millisecond_loses_key :
    ReflTransGen (Engine.Step (· ≤ ·)) (Engine.init db ⟨Fs.empty, []⟩ 0 twoTables)
        ((Engine.init db ⟨Fs.empty, []⟩ 0 twoTables).runAt 1
          ((List.replicate 5 [([1], 0), ([2], 1)]).flatten)) ∧
      (((Engine.init db ⟨Fs.empty, []⟩ 0 twoTables).runAt 1
          ((List.replicate 5 [([1], 0), ([2], 1)]).flatten)).tasks [1]).map (·.table.keys) =
        some oneEntry.keys ∧
      [1] ∈ oneEntry.keys ∧
      ((Engine.init db ⟨Fs.empty, []⟩ 0 twoTables).runAt 1
          ((List.replicate 5 [([1], 0), ([2], 1)]).flatten)).readOnlyMemtables.isEmpty ∧
      ((Engine.init db ⟨Fs.empty, []⟩ 0 twoTables).runAt 1
          ((List.replicate 5 [([1], 0), ([2], 1)]).flatten)).keyRange.entries.map (fun x => (x.1, x.2.1, x.2.2.1)) =
        [((db.join (.bucket 0)).join (.sstable 1), [2], [2])] :=
  ⟨Engine.reachable_runAt 1 _ _ (by decide), by decide, by decide, by decide, by decide⟩

/-- Over every interleaving of the tasks' steps from an empty engine, with strictly increasing
clock readings and every write succeeding, each task that has placed its table holds a data file
of its own: the map holds it, it holds exactly the task's table, and no other task holds it. -/
theorem flushed_tables_keep_own_files (dir : Path) {w : World} {clock : Nat} (hf : w.faults = [])
    (hfresh : ∀ q t, q.stamp = some t → clock < t → w.fs.files q = none)
    (tables : List (MemtableId × Memtable)) {e : Engine}
    (hrun : ReflTransGen (Engine.Step (· < ·)) (Engine.init dir w clock tables) e) :
    ∀ id t p, e.tasks id = some t → t.phase.path = some p →
      p.filePath ∈ e.store.map.paths ∧
        e.store.world.fs.files p.filePath = some (dataBytes t.table.index) ∧
        ∀ id' t' p', e.tasks id' = some t' → id' ≠ id → t'.phase.path = some p' →
          p'.filePath ≠ p.filePath := fun id t p ht hp =>
  have h := (Engine.Consistent.init dir hf hfresh tables).of_reachable hrun
  have ⟨hheld, hfile⟩ := (h.tasks id t ht).file h.separated h.settled hp
  ⟨hheld, hfile, fun id' t' p' ht' hne hp' => h.apart id' id t' t p' p ht' ht hne hp' hp⟩

/-- The two memtables each placed in a bucket, at clock readings 1 and 2. -/
def twoPlaced : Engine :=
  (Engine.init db ⟨Fs.empty, []⟩ 0 twoTables).runSchedule [([1], 0), ([2], 1)]

theorem flushed_tables_keep_own_files_two_placed :
    ReflTransGen (Engine.Step (· < ·)) (Engine.init db ⟨Fs.empty, []⟩ 0 twoTables) twoPlaced ∧
      [[1], [2]].map (fun id => ((twoPlaced.tasks id).bind (·.phase.path)).map (·.filePath)) =
        [some ((db.join (.bucket 0)).join (.sstable 1)), some ((db.join (.bucket 0)).join (.sstable 2))] ∧
      ∀ id t p, twoPlaced.tasks id = some t → t.phase.path = some p →
        p.filePath ∈ twoPlaced.store.map.paths ∧
          twoPlaced.store.world.fs.files p.filePath = some (dataBytes t.table.index) ∧
          ∀ id' t' p', twoPlaced.tasks id' = some t' → id' ≠ id → t'.phase.path = some p' →
            p'.filePath ≠ p.filePath :=
  have hrun := Engine.reachable_runSchedule (Engine.init db ⟨Fs.empty, []⟩ 0 twoTables)
    [([1], 0), ([2], 1)]
  ⟨hrun, by decide, flushed_tables_keep_own_files db rfl (fun _ _ _ _ => rfl) twoTables hrun⟩

/-- The hotness the bucket map holds for a data file. -/
def BucketMap.hotnessOf (m : BucketMap) (p : Path) : Option Nat :=
  ((m.buckets.flatMap Bucket.sstables).find? (·.filePath = p)).map SSTablePath.hotness

/-- Three sealed memtables: one of a 100-byte key, two of a 1-byte key. -/
def threeTables : List (MemtableId × Memtable) :=
  [([1], keyOfLength 100), ([2], keyOfLength 1), ([3], keyOfLength 1)]

/-- The three flushed one after another, each task running to its end before the next starts. -/
def threeFlushes : Engine :=
  (Engine.init db ⟨Fs.empty, []⟩ 0 threeTables).runSchedule
    (List.replicate 5 ([1], 0) ++ List.replicate 5 ([2], 1) ++ List.replicate 5 ([3], 2))

set_option maxRecDepth 8000 in
/-- Three successful flushes: the 117-byte table founds a bucket, the first 18-byte table founds
another, and the second joins it, raising the hotness of both to 2. Every filter copied hotness 1
when it was pushed, so the stable sort keeps the push order, and the list runs from the table of
hotness 1 to the two of hotness 2. -/
theorem bloomFilters_sorted_by_copied_hotness :
    ReflTransGen (Engine.Step (· < ·)) (Engine.init db ⟨Fs.empty, []⟩ 0 threeTables) threeFlushes ∧
      [[1], [2], [3]].map (fun id => (threeFlushes.tasks id).map (·.phase.stage)) =
        [some 5, some 5, some 5] ∧
      threeFlushes.bloomFilters.map (fun b => (b.hotness,
        b.sstablePath.bind fun p => threeFlushes.store.map.hotnessOf p.filePath)) =
        [(1, some 1), (1, some 2), (1, some 2)] :=
  ⟨Engine.reachable_runSchedule _ _, by decide, by decide⟩

end Velarix
