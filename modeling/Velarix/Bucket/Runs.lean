import Mathlib.Logic.Relation
import Velarix.Bucket.Coordinator

/-! The bucket map over runs of flushes, `delete_sstables` calls and changes of iteration order,
from an empty map: while clock readings strictly increase, its data files stay apart. -/
namespace Velarix
open Io SSTable Relation

/-- A bucket's data files, in order. -/
def Bucket.paths (b : Bucket) : List Path := b.sstables.map SSTablePath.filePath

/-- The data files the map holds, bucket after bucket. -/
def BucketMap.paths (m : BucketMap) : List Path := (m.buckets.map Bucket.paths).flatten

/-- The coordinator with what it acts on: the map, the disk, the last clock reading taken, and,
as history, the entries of the table written under each path the map took. -/
structure MapState where
  map : BucketMap
  world : World
  clock : Nat
  written : Path → Option (SkipMap EntryValue)

namespace MapState

def init (dir : Path) (w : World) (clock : Nat) : MapState :=
  ⟨BucketMap.new dir, w, clock, fun _ => none⟩

/-- The history once `mt`'s table is written under `p`. -/
def record (s : MapState) (p : SSTablePath) (mt : Memtable) : Path → Option (SkipMap EntryValue) :=
  fun q => if q = p.filePath then some mt.index else s.written q

/-- A flush handing a sealed memtable to `insert_to_appropriate_bucket` at clock reading `now`.
A failed insert leaves the disk as the failure left it, and the map as the loop changed it in
place before failing. -/
def insert (s : MapState) (mt : Memtable) (hotness : Nat) (bucketId : Uuid) (now : Nat) :
    MapState :=
  match s.map.insertToAppropriateBucket mt hotness bucketId now s.world with
  | .ok (p, m) w => ⟨m, w, now, s.record p mt⟩
  | .error _ w =>
    match pushedInPlace mt hotness now s.world s.map.buckets with
    | some (p, buckets) => ⟨{ s.map with buckets }, w, now, s.record p mt⟩
    | none => { s with world := w, clock := now }

theorem insert_eq (s : MapState) (mt : Memtable) (hotness : Nat) (u : Uuid) (now : Nat) :
    (∃ p m w, s.map.insertToAppropriateBucket mt hotness u now s.world = .ok (p, m) w ∧
        s.insert mt hotness u now = ⟨m, w, now, s.record p mt⟩) ∨
      (∃ e w p bs, s.map.insertToAppropriateBucket mt hotness u now s.world = .error e w ∧
        pushedInPlace mt hotness now s.world s.map.buckets = some (p, bs) ∧
        s.insert mt hotness u now = ⟨{ s.map with buckets := bs }, w, now, s.record p mt⟩) ∨
      (∃ e w, s.map.insertToAppropriateBucket mt hotness u now s.world = .error e w ∧
        pushedInPlace mt hotness now s.world s.map.buckets = none ∧
        s.insert mt hotness u now = { s with world := w, clock := now }) := by
  unfold insert
  cases h : s.map.insertToAppropriateBucket mt hotness u now s.world with
  | ok r w => obtain ⟨p, m⟩ := r; exact .inl ⟨p, m, w, rfl, rfl⟩
  | error e w =>
    cases hp : pushedInPlace mt hotness now s.world s.map.buckets with
    | some r => obtain ⟨p, bs⟩ := r; exact .inr (.inl ⟨e, w, p, bs, rfl, rfl, rfl⟩)
    | none => exact .inr (.inr ⟨e, w, rfl, rfl, rfl⟩)

@[simp] theorem insert_clock (s : MapState) (mt : Memtable) (hotness : Nat) (bucketId : Uuid)
    (now : Nat) : (s.insert mt hotness bucketId now).clock = now := by
  unfold insert
  split
  · rfl
  · split <;> rfl

/-- The path `insert_to_appropriate_bucket` returns, when it succeeds. -/
def insertedPath (s : MapState) (mt : Memtable) (hotness : Nat) (bucketId : Uuid) (now : Nat) :
    Option SSTablePath :=
  match s.map.insertToAppropriateBucket mt hotness bucketId now s.world with
  | .ok (p, _) _ => some p
  | .error _ _ => none

/-- `delete_sstables`; a panic in its first loop leaves the buckets that loop has already cut. -/
def delete (s : MapState) (sstablesToDelete : List (Uuid × List SSTablePath)) : MapState :=
  match s.map.deleteSstables sstablesToDelete s.world with
  | .ok m w => { s with map := m, world := w }
  | .error _ w =>
    { s with map := { s.map with buckets := keptInPlace s.map.buckets sstablesToDelete }, world := w }

theorem delete_of_ok {s : MapState} {D : List (Uuid × List SSTablePath)} {m : BucketMap}
    {w : World} (h : s.map.deleteSstables D s.world = .ok m w) :
    s.delete D = { s with map := m, world := w } := by
  unfold delete
  rw [h]

/-- The `HashMap` visiting its buckets in another order. -/
def reorder (s : MapState) (buckets : List Bucket) : MapState :=
  { s with map := { s.map with buckets } }

end MapState

/-- The moves of a run that add tables: inserts, `tick` relating the last clock reading to the
next, and changes of iteration order. -/
inductive Grow (tick : Nat → Nat → Prop) : MapState → MapState → Prop
  | insert (s : MapState) (mt : Memtable) (hotness : Nat) (bucketId : Uuid) (now : Nat) :
      tick s.clock now → Grow tick s (s.insert mt hotness bucketId now)
  | reorder (s : MapState) (buckets : List Bucket) :
      buckets.Perm s.map.buckets → Grow tick s (s.reorder buckets)

/-- The moves of a run: those of `Grow`, and `delete_sstables` with any deletion list. -/
inductive Step (tick : Nat → Nat → Prop) : MapState → MapState → Prop
  | grow {s s' : MapState} : Grow tick s s' → Step tick s s'
  | delete (s : MapState) (sstablesToDelete : List (Uuid × List SSTablePath)) :
      Step tick s (s.delete sstablesToDelete)

/-- The map's data files are kept apart. Each bucket lives in its own directory `dir/bucket<id>`,
and ids are unique; no path is held twice; every held path is named by a clock reading already
taken, and no file yet by a later one; each held file holds exactly the table written for it,
or nothing once unlinked. -/
structure Separated (s : MapState) : Prop where
  faults : s.world.faults = []
  homes : ∀ b ∈ s.map.buckets, b.dir = s.map.dir.join (.bucket b.id) ∧ s.world.fs.dirs b.dir = true
  ids : (s.map.buckets.map Bucket.id).Nodup
  nodup : s.map.paths.Nodup
  stamped : ∀ q ∈ s.map.paths, ∃ t ≤ s.clock, q.stamp = some t
  fresh : ∀ q t, q.stamp = some t → s.clock < t → s.world.fs.files q = none
  contents : ∀ q ∈ s.map.paths, ∃ E, s.written q = some E ∧
    (s.world.fs.files q = some (dataBytes E) ∨ s.world.fs.files q = none)

theorem insertBucket_of_absent {bs : List Bucket} {b : Bucket} (h : ∀ x ∈ bs, x.id ≠ b.id) :
    insertBucket bs b = bs ++ [b] := by
  have : bs.any (fun x => x.id = b.id) = false := List.any_eq_false.mpr fun x hx => by simpa using h x hx
  simp [insertBucket, this]

theorem Bucket.paths_keepPrefixOf (ids : List Uuid) (b : Bucket) :
    (keepPrefixOf ids b).paths.Sublist b.paths := by
  unfold keepPrefixOf
  split
  · exact (List.take_sublist _ _).map _
  · exact List.Sublist.refl _

theorem BucketMap.paths_keepPrefixOf (ids : List Uuid) : ∀ bs : List Bucket,
    ((bs.map (keepPrefixOf ids)).map Bucket.paths).flatten.Sublist (bs.map Bucket.paths).flatten
  | [] => List.Sublist.slnil
  | b :: bs => by
    simpa only [List.map_cons, List.flatten_cons] using
      (Bucket.paths_keepPrefixOf ids b).append (paths_keepPrefixOf ids bs)

namespace Separated
variable {s : MapState}

theorem writesAt_later (h : Separated s) {now : Nat} (hnow : s.clock < now) {w' : World}
    (hw : WritesAt now s.world w') :
    w'.faults = [] ∧ (∀ q, s.world.fs.dirs q → w'.fs.dirs q) ∧
      (∀ q ∈ s.map.paths, w'.fs.files q = s.world.fs.files q) ∧
      ∀ q t, q.stamp = some t → now < t → w'.fs.files q = none := by
  obtain ⟨hf, hd, -, hframe⟩ := hw h.faults
  refine ⟨hf, hd, fun q hq => hframe q ?_, fun q t hq ht => ?_⟩
  · obtain ⟨t, ht, hq'⟩ := h.stamped q hq
    rw [hq']
    simp only [ne_eq, Option.some.injEq]
    omega
  · rw [hframe q (by rw [hq]; simp only [ne_eq, Option.some.injEq]; omega)]
    exact h.fresh q t hq (by omega)

theorem init (dir : Path) {w : World} {clock : Nat} (hf : w.faults = [])
    (hfresh : ∀ q t, q.stamp = some t → clock < t → w.fs.files q = none) :
    Separated (MapState.init dir w clock) where
  faults := hf
  homes := by simp [MapState.init, BucketMap.new]
  ids := List.nodup_nil
  nodup := List.nodup_nil
  stamped := by simp [MapState.init, BucketMap.new, BucketMap.paths]
  fresh := hfresh
  contents := by simp [MapState.init, BucketMap.new, BucketMap.paths]

theorem reorder (h : Separated s) {buckets : List Bucket} (hp : buckets.Perm s.map.buckets) :
    Separated (s.reorder buckets) where
  faults := h.faults
  homes := fun b hb => h.homes b (hp.subset hb)
  ids := (hp.map Bucket.id).nodup_iff.mpr h.ids
  nodup := (hp.map Bucket.paths).flatten.nodup_iff.mpr h.nodup
  stamped := fun q hq => h.stamped q ((hp.map Bucket.paths).flatten.subset hq)
  fresh := h.fresh
  contents := fun q hq => h.contents q ((hp.map Bucket.paths).flatten.subset hq)

theorem Bucket.paths_push (b : Bucket) (p : SSTablePath) :
    (b.push p).paths = b.paths ++ [p.filePath] := by
  simp [Bucket.paths, Function.comp_def]

theorem BucketMap.paths_replace {m : BucketMap} {pre post : List Bucket} {b b' : Bucket}
    (hbs : m.buckets = pre ++ b :: post) {q : Path} (hb' : b'.paths = b.paths ++ [q]) :
    ((pre ++ b' :: post : List Bucket).map Bucket.paths).flatten.Perm (m.paths ++ [q]) := by
  simp only [BucketMap.paths, hbs, hb', List.map_append, List.map_cons, List.flatten_append,
    List.flatten_cons, List.append_assoc, List.singleton_append]
  exact ((List.perm_append_singleton _ _).symm.append_left _).append_left _

theorem push_shape (h : Separated s) {pre post : List Bucket} {b : Bucket}
    (hbs : s.map.buckets = pre ++ b :: post) (p : SSTablePath) (a : Nat) :
    ((pre ++ { b.push p with avarageSize := a } :: post).map Bucket.paths).flatten.Perm
        (s.map.paths ++ [p.filePath]) ∧
      ((pre ++ { b.push p with avarageSize := a } :: post).map Bucket.id).Nodup ∧
      ∀ x ∈ pre ++ { b.push p with avarageSize := a } :: post,
        x.dir = s.map.dir.join (.bucket x.id) ∧ s.world.fs.dirs x.dir = true := by
  refine ⟨BucketMap.paths_replace hbs (Bucket.paths_push b p), by simpa [hbs] using h.ids,
    fun x hx => ?_⟩
  rcases List.mem_append.mp hx with hx | hx
  · exact h.homes x (by simp [hbs, hx])
  rcases List.mem_cons.mp hx with rfl | hx
  · exact h.homes b (by simp [hbs])
  · exact h.homes x (by simp [hbs, hx])

theorem absent_of_free (h : Separated s) {u : Uuid}
    (hfree : (s.world.fs.dirs (s.map.dir.join (.bucket u)) ||
      (s.world.fs.files (s.map.dir.join (.bucket u))).isSome) = false) :
    ∀ x ∈ s.map.buckets, x.id ≠ u := fun x hx hxu => by
  obtain ⟨hxd, hxe⟩ := h.homes x hx
  rw [hxd, hxu] at hxe
  simp [hxe] at hfree

theorem found_shape (h : Separated s) {u : Uuid} {fs : Fs} (hfs : ∀ q, s.world.fs.dirs q → fs.dirs q)
    (hfree : (s.world.fs.dirs (s.map.dir.join (.bucket u)) ||
      (s.world.fs.files (s.map.dir.join (.bucket u))).isSome) = false)
    (hnew : fs.dirs (s.map.dir.join (.bucket u)) = true) (p : SSTablePath) (a : Nat) :
    ((insertBucket s.map.buckets ⟨u, s.map.dir.join (.bucket u), a, [p]⟩).map Bucket.paths).flatten.Perm
        (s.map.paths ++ [p.filePath]) ∧
      ((insertBucket s.map.buckets ⟨u, s.map.dir.join (.bucket u), a, [p]⟩).map Bucket.id).Nodup ∧
      ∀ x ∈ insertBucket s.map.buckets ⟨u, s.map.dir.join (.bucket u), a, [p]⟩,
        x.dir = s.map.dir.join (.bucket x.id) ∧ fs.dirs x.dir = true := by
  have habsent := h.absent_of_free hfree
  rw [insertBucket_of_absent habsent]
  refine ⟨by simp [BucketMap.paths, Bucket.paths], ?_, fun x hx => ?_⟩
  · rw [List.map_append, List.nodup_append_comm]
    refine List.nodup_cons.mpr ⟨fun hu => ?_, h.ids⟩
    obtain ⟨x, hx, hxu⟩ := List.mem_map.mp hu
    exact habsent x hx hxu
  · rcases List.mem_append.mp hx with hx | hx
    · exact ⟨(h.homes x hx).1, hfs _ (h.homes x hx).2⟩
    · rw [List.mem_singleton.mp hx]
      exact ⟨rfl, hnew⟩

theorem missing_of_pushed (h : Separated s) {mt : Memtable} {hotness : Nat} {u : Uuid} {now : Nat}
    (hnow : s.clock < now) {p : SSTablePath} {bs : List Bucket}
    (hpush : pushedInPlace mt hotness now s.world s.map.buckets = some (p, bs))
    (hfail : s.insertedPath mt hotness u now = none) :
    ∃ q ∈ s.map.paths, s.world.fs.files q = none := by
  obtain ⟨pre, b, post, t, w₁, hbs, -, -, -, rfl, ht, hall⟩ :=
    BucketMap.insertToAppropriateBucket_of_pushedInPlace u hpush
  have hheld := (h.writesAt_later hnow ((writeSSTable_keeps _ _ _).of_ok ht)).2.2.1
  rw [MapState.insertedPath, (hall _ _ ht).2] at hfail
  split_ifs at hfail with hc
  rw [show s.world = ⟨s.world.fs, []⟩ by rw [← h.faults]] at ht
  have hfile := (writeSSTable_ok ht).2
  rw [List.all_eq_true] at hc
  push_neg at hc
  obtain ⟨x, hx, hnone⟩ := hc
  rw [Bucket.push_sstables] at hx
  obtain ⟨y, hy, rfl⟩ := List.mem_map.mp hx
  rcases List.mem_append.mp hy with hy | hy
  · have hq : y.filePath ∈ s.map.paths :=
      List.mem_flatten.mpr ⟨b.paths, by simp [hbs], List.mem_map_of_mem _ hy⟩
    exact ⟨y.filePath, hq, by rw [← hheld _ hq]; simpa using hnone⟩
  · rw [List.mem_singleton.mp hy] at hnone
    simp [hfile] at hnone

theorem insert_cases (h : Separated s) (mt : Memtable) (hotness : Nat) (u : Uuid) {now : Nat}
    (hnow : s.clock < now) {s' : MapState} (hs' : s.insert mt hotness u now = s') :
    s'.clock = now ∧ s'.world.faults = [] ∧ (∀ q, s.world.fs.dirs q → s'.world.fs.dirs q) ∧
      (∀ q ∈ s.map.paths, s'.world.fs.files q = s.world.fs.files q) ∧
      (∀ q t, q.stamp = some t → now < t → s'.world.fs.files q = none) ∧
      ((s.insertedPath mt hotness u now = none ∧ s'.map = s.map ∧ s'.written = s.written) ∨
        ∃ p, p.filePath.stamp = some now ∧
          s'.map.paths.Perm (s.map.paths ++ [p.filePath]) ∧ (s'.map.buckets.map Bucket.id).Nodup ∧
          (∀ b ∈ s'.map.buckets, b.dir = s'.map.dir.join (.bucket b.id) ∧
            s'.world.fs.dirs b.dir = true) ∧
          s'.world.fs.files p.filePath = some (dataBytes mt.index) ∧ s'.written = s.record p mt ∧
          ((s.insertedPath mt hotness u now = some p ∧
              s.map.insertToAppropriateBucket mt hotness u now ⟨s.world.fs, []⟩ =
                .ok (p, s'.map) s'.world) ∨
            s.insertedPath mt hotness u now = none ∧ ∃ q ∈ s.map.paths, s.world.fs.files q = none)) := by
  subst hs'
  have hw0 : s.world = ⟨s.world.fs, []⟩ := by rw [← h.faults]
  have hkeep := s.map.insertToAppropriateBucket_keeps mt hotness u now
  rcases s.insert_eq mt hotness u now with ⟨p, m', w', heq, hins⟩ | ⟨e, w', p, bs, heq, hpush, hins⟩ |
    ⟨e, w', heq, -, hins⟩
  · have hpath : s.insertedPath mt hotness u now = some p := by simp [MapState.insertedPath, heq]
    obtain ⟨hf', hd', hheld, hfresh'⟩ := h.writesAt_later hnow (hkeep.of_ok heq)
    rw [hins]
    rw [hw0] at heq
    have hok := BucketMap.insertToAppropriateBucket_ok heq
    obtain ⟨hpaths, hids, hhomes⟩ : m'.paths.Perm (s.map.paths ++ [p.filePath]) ∧
        (m'.buckets.map Bucket.id).Nodup ∧
        ∀ b ∈ m'.buckets, b.dir = m'.dir.join (.bucket b.id) ∧ w'.fs.dirs b.dir = true := by
      rw [BucketMap.paths, hok.1]
      rcases hok.2.2.2 with ⟨pre, b, post, hbs, -, -, rfl, hm'⟩ | ⟨-, hfree, hnew, rfl, hm'⟩
      · obtain ⟨h₁, h₂, h₃⟩ := h.push_shape hbs _ _
        rw [hm']
        exact ⟨h₁, h₂, fun x hx => ⟨(h₃ x hx).1, hd' _ (h₃ x hx).2⟩⟩
      · rw [hm']
        exact h.found_shape hd' hfree hnew _ _
    refine ⟨rfl, hf', hd', hheld, hfresh', .inr ⟨p, BucketMap.insertToAppropriateBucket_stamp heq,
      hpaths, hids, hhomes, ?_, rfl, .inl ⟨hpath, heq⟩⟩⟩
    rw [hok.2.2.1, h.fresh _ now (BucketMap.insertToAppropriateBucket_stamp heq) hnow]
    rfl
  · have hpath : s.insertedPath mt hotness u now = none := by simp [MapState.insertedPath, heq]
    obtain ⟨hf', hd', hheld, hfresh'⟩ := h.writesAt_later hnow (hkeep.of_error heq)
    obtain ⟨pre, b, post, t, w₁, hbs, rfl, -, -, hp, ht, hall⟩ :=
      BucketMap.insertToAppropriateBucket_of_pushedInPlace u hpush
    have heq' := (hall _ _ ht).2
    rw [heq] at heq'
    split_ifs at heq'
    cases heq'
    rw [hw0] at ht
    obtain ⟨hd, hfile⟩ := writeSSTable_ok ht
    have hp : p.filePath = t.dataFilePath := by rw [hp]
    have hstamp : p.filePath.stamp = some now := by rw [hp, hd]; rfl
    rw [← hp, h.fresh _ now hstamp hnow] at hfile
    obtain ⟨hpaths, hids, hhomes⟩ := h.push_shape hbs p b.avarageSize
    rw [hins]
    exact ⟨rfl, hf', hd', hheld, hfresh', .inr ⟨p, hstamp, hpaths, hids,
      fun x hx => ⟨(hhomes x hx).1, hd' _ (hhomes x hx).2⟩, hfile, rfl,
      .inr ⟨hpath, h.missing_of_pushed hnow hpush hpath⟩⟩⟩
  · have hpath : s.insertedPath mt hotness u now = none := by simp [MapState.insertedPath, heq]
    obtain ⟨hf', hd', hheld, hfresh'⟩ := h.writesAt_later hnow (hkeep.of_error heq)
    rw [hins]
    exact ⟨rfl, hf', hd', hheld, hfresh', .inl ⟨hpath, rfl, rfl⟩⟩

theorem insert (h : Separated s) (mt : Memtable) (hotness : Nat) (u : Uuid) {now : Nat}
    (hnow : s.clock < now) : Separated (s.insert mt hotness u now) := by
  obtain ⟨hc, hf', hd', hheld, hfresh', hcases⟩ := h.insert_cases mt hotness u hnow rfl
  have hstamped : ∀ q ∈ s.map.paths, ∃ t ≤ (s.insert mt hotness u now).clock, q.stamp = some t :=
    fun q hq => let ⟨t, ht, hq'⟩ := h.stamped q hq; ⟨t, by omega, hq'⟩
  rcases hcases with ⟨-, hm, hw⟩ | ⟨p, hp, hpaths, hids, hhomes, hpfile, hw, -⟩
  · refine ⟨hf', ?_, ?_, ?_, ?_, by rw [hc]; exact hfresh', ?_⟩ <;> rw [hm]
    · exact fun b hb => ⟨(h.homes b hb).1, hd' _ (h.homes b hb).2⟩
    · exact h.ids
    · exact h.nodup
    · exact hstamped
    · intro q hq
      rw [hw, hheld q hq]
      exact h.contents q hq
  have hpnew : p.filePath ∉ s.map.paths := fun hq => by
    obtain ⟨t, ht, hq'⟩ := h.stamped _ hq
    rw [hp, Option.some.injEq] at hq'
    omega
  refine ⟨hf', hhomes, hids,
    hpaths.nodup_iff.mpr (List.nodup_append_comm.mp (List.nodup_cons.mpr ⟨hpnew, h.nodup⟩)),
    fun q hq => ?_, by rw [hc]; exact hfresh', fun q hq => ?_⟩
  · rcases List.mem_append.mp (hpaths.subset hq) with hq | hq
    · exact hstamped q hq
    · exact ⟨now, hc.ge, List.mem_singleton.mp hq ▸ hp⟩
  · rw [hw]
    by_cases hqp : q = p.filePath
    · exact ⟨mt.index, by simp [MapState.record, hqp], .inl (hqp ▸ hpfile)⟩
    · have hq := (List.mem_append.mp (hpaths.subset hq)).resolve_right
        fun hq => hqp (List.mem_singleton.mp hq)
      obtain ⟨E, hE, hc⟩ := h.contents q hq
      exact ⟨E, by simp [MapState.record, hqp, hE], by rw [hheld q hq]; exact hc⟩

theorem insert_keeps_held (h : Separated s) (mt : Memtable) (hotness : Nat) (u : Uuid)
    {now : Nat} (hnow : s.clock < now) :
    ∀ q ∈ s.map.paths, q ∈ (s.insert mt hotness u now).map.paths ∧
      (s.insert mt hotness u now).written q = s.written q := by
  intro q hq
  obtain ⟨-, -, -, -, -, ⟨-, hm, hw⟩ | ⟨p, hp, hpaths, -, -, -, hw, -⟩⟩ :=
    h.insert_cases mt hotness u hnow rfl
  · exact ⟨hm ▸ hq, by rw [hw]⟩
  have hne : q ≠ p.filePath := fun he => by
    obtain ⟨t, ht, hq'⟩ := h.stamped q hq
    rw [he, hp, Option.some.injEq] at hq'
    omega
  exact ⟨hpaths.mem_iff.mpr (List.mem_append_left _ hq), by rw [hw, MapState.record, if_neg hne]⟩

theorem keepPrefixOf_removed (h : Separated s) (ids : List Uuid) {fs' : Fs}
    (hdirs : fs'.dirs = s.world.fs.dirs)
    (hfiles : ∀ q, fs'.files q = none ∨ fs'.files q = s.world.fs.files q) :
    Separated { s with
      map := { s.map with buckets := s.map.buckets.map (keepPrefixOf ids) }
      world := ⟨fs', s.world.faults⟩ } := by
  have hsub := BucketMap.paths_keepPrefixOf ids s.map.buckets
  refine ⟨h.faults, fun x hx => ?_, by simpa [List.map_map, Function.comp_def] using h.ids,
    h.nodup.sublist hsub, fun q hq => h.stamped q (hsub.subset hq), fun q t hq ht => ?_,
    fun q hq => ?_⟩
  · obtain ⟨b, hb, rfl⟩ := List.mem_map.mp hx
    obtain ⟨hdir, hd⟩ := h.homes b hb
    unfold keepPrefixOf
    split <;> exact ⟨hdir, by simpa [hdirs] using hd⟩
  · show fs'.files q = none
    rcases hfiles q with hq' | hq' <;> rw [hq']
    exact h.fresh q t hq ht
  · obtain ⟨E, hE, hc⟩ := h.contents q (hsub.subset hq)
    refine ⟨E, hE, ?_⟩
    show fs'.files q = _ ∨ fs'.files q = none
    rcases hfiles q with hq' | hq' <;> rw [hq']
    · exact .inr rfl
    · exact hc

theorem delete (h : Separated s) (D : List (Uuid × List SSTablePath)) : Separated (s.delete D) := by
  unfold MapState.delete
  rcases BucketMap.deleteSstables_cases s.map D s.world h.ids with
    ⟨-, fs', heq, hdirs, hfiles⟩ | ⟨-, e, heq⟩ <;> rw [heq]
  · exact h.keepPrefixOf_removed _ hdirs fun q => by rw [hfiles]; split <;> simp
  · obtain ⟨ids, hk⟩ := BucketMap.keptInPlace_eq (D := D) h.ids
    rw [hk]
    exact h.keepPrefixOf_removed ids rfl fun _ => .inr rfl

theorem of_reachable {s₀ s : MapState} (h₀ : Separated s₀)
    (hrun : ReflTransGen (Step (· < ·)) s₀ s) : Separated s := by
  induction hrun with
  | refl => exact h₀
  | tail _ hstep ih =>
    cases hstep with
    | grow hg =>
      cases hg with
      | insert mt hotness u now hnow => exact ih.insert mt hotness u hnow
      | reorder buckets hp => exact ih.reorder hp
    | delete D => exact ih.delete D

end Separated

/-- Over every run from an empty map, with strictly increasing clock readings and every write
succeeding, bucket ids stay unique and every bucket lives in a directory of its own,
`dir/bucket<id>`, which exists. -/
theorem buckets_own_directories (dir : Path) {w : World} {clock : Nat} (hf : w.faults = [])
    (hfresh : ∀ q t, q.stamp = some t → clock < t → w.fs.files q = none) {s : MapState}
    (hrun : ReflTransGen (Step (· < ·)) (MapState.init dir w clock) s) :
    (s.map.buckets.map Bucket.id).Nodup ∧
      ∀ b ∈ s.map.buckets, b.dir = s.map.dir.join (.bucket b.id) ∧ s.world.fs.dirs b.dir = true :=
  have h := (Separated.init dir hf hfresh).of_reachable hrun
  ⟨h.ids, h.homes⟩

def db : Path := Path.root.join (.named "db")

/-- A memtable of one entry, `[1] ↦ (0, 0, false)`, reporting 18 bytes, its table's data size. -/
def oneEntry : Memtable := ⟨⟨[([1], 0, 0, false)], List.pairwise_singleton _ _⟩, 18⟩

/-- A memtable of one entry under a key of `n` bytes, reporting `17 + n` bytes, its table's data
size. -/
def keyOfLength (n : Nat) : Memtable :=
  ⟨⟨[(List.replicate n 1, 0, 0, false)], List.pairwise_singleton _ _⟩, 17 + n⟩

/-- Flushes of 18, 21, 50 and 25 bytes at clock readings 1 to 4: the 50-byte table founds a
second bucket, the others share the first. -/
def fourFlushes : MapState :=
  ((((MapState.init db ⟨Fs.empty, []⟩ 0).insert oneEntry 1 0 1).insert (keyOfLength 4) 1 1 2).insert
    (keyOfLength 33) 1 2 3).insert (keyOfLength 8) 1 3 4

theorem fourFlushes_reachable :
    ReflTransGen (Grow (· < ·)) (MapState.init db ⟨Fs.empty, []⟩ 0) fourFlushes :=
  .tail (.tail (.tail (.single (.insert _ _ 1 0 1 (by decide))) (.insert _ _ 1 1 2 (by simp)))
    (.insert _ _ 1 2 3 (by simp))) (.insert _ _ 1 3 4 (by simp))

theorem buckets_own_directories_four_flushes :
    ReflTransGen (Step (· < ·)) (MapState.init db ⟨Fs.empty, []⟩ 0) fourFlushes ∧
      fourFlushes.map.buckets.map (fun b => (b.id, b.sstables.length)) = [(0, 3), (2, 1)] ∧
      ((fourFlushes.map.buckets.map Bucket.id).Nodup ∧
        ∀ b ∈ fourFlushes.map.buckets, b.dir = fourFlushes.map.dir.join (.bucket b.id) ∧
          fourFlushes.world.fs.dirs b.dir = true) :=
  have hrun := ReflTransGen.mono (fun _ _ => Step.grow) fourFlushes_reachable
  ⟨hrun, rfl, buckets_own_directories db rfl (fun _ _ _ _ => rfl) hrun⟩

/-- Two flushes of one-entry memtables within the same millisecond, the clock reading 0 taken
twice: the second table passes the test against the bucket the first one founded, and is written
into it under the same reading. The map holds the path twice, and the file holds both tables. -/
theorem same_millisecond_shares_file :
    ReflTransGen (Step (· ≤ ·)) (MapState.init db ⟨Fs.empty, []⟩ 0)
        (((MapState.init db ⟨Fs.empty, []⟩ 0).insert oneEntry 1 0 0).insert oneEntry 1 1 0) ∧
      (((MapState.init db ⟨Fs.empty, []⟩ 0).insert oneEntry 1 0 0).insert oneEntry 1 1 0).map.paths =
        [(db.join (.bucket 0)).join (.sstable 0), (db.join (.bucket 0)).join (.sstable 0)] ∧
      (((MapState.init db ⟨Fs.empty, []⟩ 0).insert oneEntry 1 0 0).insert oneEntry 1 1 0).world.fs.files
        ((db.join (.bucket 0)).join (.sstable 0)) =
        some (dataBytes oneEntry.index ++ dataBytes oneEntry.index) :=
  ⟨.tail (.single (.grow (.insert _ oneEntry 1 0 0 (by decide)))) (.grow (.insert _ oneEntry 1 1 0
    (by decide))), by decide, by decide⟩

end Velarix
