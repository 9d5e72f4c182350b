import Mathlib.Data.List.Nodup
import Velarix.SSTable.Write

/-! The bucket coordinator: `insert_to_appropriate_bucket`, `extract_buckets_to_compact` and
`delete_sstables`. `HashMap<Uuid, Bucket>` is the list its iterator visits. -/
namespace Velarix
open Io SSTable

def minSstableSize : Nat := 32

def minTreshold : Nat := 4

def maxTreshold : Nat := 32

/-- `n as f64`, for the naturals the placement test meets: the nearest value with a 53-bit
significand, ties to even. -/
def roundF64 (n : Nat) : Nat :=
  if n < 2 ^ 53 then n
  else
    let e := n.log2 - 52
    let q := n / 2 ^ e
    (if 2 ^ e < 2 * (n % 2 ^ e) ∨ 2 * (n % 2 ^ e) = 2 ^ e ∧ q % 2 = 1 then q + 1 else q) * 2 ^ e

/-- `usize::MAX`, where an `f64 as usize` cast saturates. -/
def usizeMax : Nat := 2 ^ 64 - 1

/-- The placement test, `BUCKET_LOW = 0.5` and `BUCKET_HIGH = 1.5`. With `a = avg as f64`,
`a * 0.5 < size as f64` is exact; `a * 1.5` is `3 * a / 2` rounded, whose significand is that of
`3 * a`, and `as usize` truncates it and saturates. -/
def fitsBucket (avarageSize size : Nat) : Bool :=
  roundF64 avarageSize < 2 * roundF64 size &&
      size < min (roundF64 (3 * roundF64 avarageSize) / 2) usizeMax ||
    size < minSstableSize && avarageSize < minSstableSize

theorem roundF64_of_lt {n : Nat} (h : n < 2 ^ 53) : roundF64 n = n := if_pos h

theorem two_pow_le_roundF64 {n : Nat} (h : 2 ^ 53 ≤ n) : 2 ^ 53 ≤ roundF64 n := by
  have hn : n ≠ 0 := by omega
  have hlog : 53 ≤ n.log2 := (Nat.le_log2 hn).mpr h
  have hq : 2 ^ 52 ≤ n / 2 ^ (n.log2 - 52) := by
    rw [Nat.le_div_iff_mul_le (Nat.two_pow_pos _), ← Nat.pow_add, show 52 + (n.log2 - 52) = n.log2 by omega]
    exact Nat.log2_self_le hn
  have he : 2 ≤ 2 ^ (n.log2 - 52) := Nat.le_self_pow (by omega) 2
  unfold roundF64
  rw [if_neg (by omega)]
  calc 2 ^ 53 = 2 ^ 52 * 2 := by norm_num
    _ ≤ n / 2 ^ (n.log2 - 52) * 2 ^ (n.log2 - 52) := Nat.mul_le_mul hq he
    _ ≤ _ := Nat.mul_le_mul_right _ (by split <;> omega)

theorem fitsBucket_of_lt {avarageSize : Nat} (h : 3 * avarageSize < 2 ^ 53) (size : Nat) :
    fitsBucket avarageSize size = (avarageSize < 2 * size && size < 3 * avarageSize / 2 ||
      size < minSstableSize && avarageSize < minSstableSize) := by
  have hmin : min (3 * avarageSize / 2) usizeMax = 3 * avarageSize / 2 :=
    Nat.min_eq_left (by simp only [usizeMax]; omega)
  rw [fitsBucket, roundF64_of_lt (by omega : avarageSize < 2 ^ 53), roundF64_of_lt h, hmin]
  by_cases hs : size < 2 ^ 53
  · rw [roundF64_of_lt hs]
  · have := two_pow_le_roundF64 (Nat.le_of_not_lt hs)
    rw [decide_eq_true (show avarageSize < 2 * roundF64 size by omega),
      decide_eq_true (show avarageSize < 2 * size by omega)]

/-- The coordinator's `SSTablePath`: the data file's path and its hotness. -/
structure SSTablePath where
  filePath : Path
  hotness : Nat
  deriving DecidableEq, Repr

def SSTablePath.increaseHotness (s : SSTablePath) : SSTablePath := { s with hotness := s.hotness + 1 }

@[simp] theorem SSTablePath.increaseHotness_filePath (s : SSTablePath) :
    s.increaseHotness.filePath = s.filePath := rfl

@[simp] theorem SSTablePath.increaseHotness_hotness (s : SSTablePath) :
    s.increaseHotness.hotness = s.hotness + 1 := rfl

/-- Modelled from the spec: a sealed memtable as the coordinator reads it, its entries
(`get_index()`) and `size()`, the summed byte cost of its entries as the memtable reports it. -/
structure Memtable where
  index : SkipMap EntryValue
  size : Nat

structure Bucket where
  id : Uuid
  dir : Path
  avarageSize : Nat
  sstables : List SSTablePath

structure BucketMap where
  dir : Path
  buckets : List Bucket

/-- `Bucket::new`: `fs::create_dir(dir/bucket<uuid>).expect(..)`, which panics on a path that
exists. -/
def Bucket.new (dir : Path) (bucketId : Uuid) : Io Bucket := do
  let bucketDir := dir.join (.bucket bucketId)
  createDir bucketDir "Unable to create file"
  pure ⟨bucketId, bucketDir, 0, []⟩

/-- `HashMap::insert`: a bucket under an id present replaces it where it stands; a new id goes
last in the iteration order, which is the model's choice. -/
def insertBucket (buckets : List Bucket) (b : Bucket) : List Bucket :=
  if buckets.any (·.id = b.id) then buckets.map fun x => if x.id = b.id then b else x
  else buckets ++ [b]

/-- `fs::metadata(path).unwrap().len()`. -/
def metadataLenUnwrap (p : Path) : Io Nat := fun w =>
  match w.fs.files p with
  | some b => .ok b.length w
  | none => .error (.panic "called Result::unwrap() on an Err value") w

/-- The length of a file; 0 when there is none. -/
def fileLen (fs : Fs) (p : Path) : Nat := ((fs.files p).map List.length).getD 0

/-- `sstables.iter().map(|s| fs::metadata(s.get_path()).unwrap().len()).sum()`. -/
def sumFileLens : List SSTablePath → Io Nat
  | [] => pure 0
  | s :: ss => do
    let n ← metadataLenUnwrap s.filePath
    pure (n + (← sumFileLens ss))

/-- `SSTable::new(dir, true)`, `set_index(memtable.get_index())` and `write_to_file()`, as both
branches of `insert_to_appropriate_bucket` run them. -/
def writeSSTable (dir : Path) (memtable : Memtable) (now : Nat) : Io SSTable := do
  let sstable := (← SSTable.new dir true now).setEntries memtable.index
  sstable.writeToFile
  pure sstable

/-- `bucket.sstables.push(sstable_path)`, then `increase_hotness` on every member, in place. -/
def Bucket.push (b : Bucket) (sstablePath : SSTablePath) : Bucket :=
  { b with sstables := (b.sstables ++ [sstablePath]).map SSTablePath.increaseHotness }

@[simp] theorem Bucket.push_sstables (b : Bucket) (p : SSTablePath) :
    (b.push p).sstables = (b.sstables ++ [p]).map SSTablePath.increaseHotness := rfl

@[simp] theorem Bucket.push_id (b : Bucket) (p : SSTablePath) : (b.push p).id = b.id := rfl

@[simp] theorem Bucket.push_dir (b : Bucket) (p : SSTablePath) : (b.push p).dir = b.dir := rfl

@[simp] theorem Bucket.push_avarageSize (b : Bucket) (p : SSTablePath) :
    (b.push p).avarageSize = b.avarageSize := rfl

/-- The loop body for the bucket that matches: the table is written into the bucket's
directory, pushed, and the average is taken again over the members' files. The path returned
is the one before the rise. -/
def writeIntoBucket (b : Bucket) (memtable : Memtable) (hotness now : Nat) :
    Io (SSTablePath × Bucket) := do
  let sstable ← writeSSTable b.dir memtable now
  let sstablePath : SSTablePath := ⟨sstable.dataFilePath, hotness⟩
  let bucket := b.push sstablePath
  let total ← sumFileLens bucket.sstables
  pure (sstablePath, { bucket with avarageSize := total / bucket.sstables.length })

/-- The `for` loop of `insert_to_appropriate_bucket`: the first bucket that passes the test
takes the table; `none` when none does. -/
def placeInBuckets (memtable : Memtable) (hotness now : Nat) :
    List Bucket → Io (Option (SSTablePath × List Bucket))
  | [] => pure none
  | b :: bs =>
    if fitsBucket b.avarageSize memtable.size then do
      let (sstablePath, b) ← writeIntoBucket b memtable hotness now
      pure (some (sstablePath, b :: bs))
    else do
      match ← placeInBuckets memtable hotness now bs with
      | some (sstablePath, bs) => pure (some (sstablePath, b :: bs))
      | none => pure none

/-- What the loop has changed in place when the call fails: once the table is written into the
bucket that takes it, the path is pushed and every member raised, and only then does the
`unwrap` of the average panic on a member whose file is gone. The tests before that bucket read
no file, so its write sees the world the call started from. `none` when nothing was changed. -/
def pushedInPlace (memtable : Memtable) (hotness now : Nat) (w : World) :
    List Bucket → Option (SSTablePath × List Bucket)
  | [] => none
  | b :: bs =>
    if fitsBucket b.avarageSize memtable.size then
      match writeSSTable b.dir memtable now w with
      | .ok sstable _ => some (⟨sstable.dataFilePath, hotness⟩,
          b.push ⟨sstable.dataFilePath, hotness⟩ :: bs)
      | .error _ _ => none
    else (pushedInPlace memtable hotness now w bs).map fun (sstablePath, bs) => (sstablePath, b :: bs)

/-- What writing a table at clock reading `now` may do to a disk on which every write succeeds:
every write still succeeds, directories and files only appear, and no file changes but those
named by `now`. -/
def WritesAt (now : Nat) (w w' : World) : Prop :=
  w.faults = [] → w'.faults = [] ∧ (∀ q, w.fs.dirs q → w'.fs.dirs q) ∧
    (∀ q, (w.fs.files q).isSome → (w'.fs.files q).isSome) ∧
    ∀ q, q.stamp ≠ some now → w'.fs.files q = w.fs.files q

namespace WritesAt
variable {now : Nat}

theorem refl (w : World) : WritesAt now w w := fun h => ⟨h, fun _ => id, fun _ => id, fun _ _ => rfl⟩

theorem trans {u v w : World} (h₁ : WritesAt now u v) (h₂ : WritesAt now v w) : WritesAt now u w :=
  fun hu =>
    have ⟨hv, hd₁, he₁, hf₁⟩ := h₁ hu
    have ⟨hw, hd₂, he₂, hf₂⟩ := h₂ hv
    ⟨hw, fun q hq => hd₂ q (hd₁ q hq), fun q hq => he₂ q (he₁ q hq),
      fun q hq => (hf₂ q hq).trans (hf₁ q hq)⟩

end WritesAt

namespace WritesAt
variable {now : Nat} {α β : Type}

theorem keeps_pure (a : α) : Keeps (WritesAt now) (pure a : Io α) := Io.keeps_pure refl a

theorem keeps_bind {x : Io α} {f : α → Io β} (hx : Keeps (WritesAt now) x)
    (hf : ∀ a, Keeps (WritesAt now) (f a)) : Keeps (WritesAt now) (x >>= f) :=
  Io.keeps_bind (R := WritesAt now) trans hx hf

end WritesAt

theorem keeps_readOnly {α : Type} {now : Nat} {x : Io α} (h : ∀ w, x.after w = w) :
    Keeps (WritesAt now) x :=
  keeps_of_readOnly WritesAt.refl h

private theorem writeSSTable_cases (d : Path) (mt : Memtable) (now : Nat) (fs : Fs) :
    (FitsBlocks mt.index.toList ∧ ∃ ix, writeSSTable d mt now ⟨fs, []⟩ =
      .ok ((⟨d.join (.sstable now), d.join (.index now), d, SkipMap.empty, now, 0⟩ : SSTable).setEntries
        mt.index) ⟨((((if fs.dirs d || (fs.files d).isSome then fs else fs.addDir d).touch
          (d.join (.sstable now))).touch (d.join (.index now))).append (d.join (.sstable now))
            (dataBytes mt.index)).append (d.join (.index now)) ix, []⟩) ∨
    ¬ FitsBlocks mt.index.toList ∧ writeSSTable d mt now ⟨fs, []⟩ = .error .blockIsFull
      ⟨((if fs.dirs d || (fs.files d).isSome then fs else fs.addDir d).touch
        (d.join (.sstable now))).touch (d.join (.index now)), []⟩ := by
  have hc : (((if fs.dirs d || (fs.files d).isSome then fs else fs.addDir d).touch
      (d.join (.sstable now))).touch (d.join (.index now))).files (d.join (.sstable now)) =
      some ((fs.files (d.join (.sstable now))).getD []) := by
    split <;> simp [Fs.touch_files]
  rcases writeToFile_cases ((⟨d.join (.sstable now), d.join (.index now), d, SkipMap.empty, now, 0⟩ :
      SSTable).setEntries mt.index) hc with ⟨hfit, ix, h⟩ | ⟨hfit, h⟩
  · refine .inl ⟨hfit, ix, ?_⟩
    simp only [writeSSTable, bind, EStateM.bind, new_ok, h]
    rfl
  · refine .inr ⟨hfit, ?_⟩
    simp only [writeSSTable, bind, EStateM.bind, new_ok, h]

theorem writeSSTable_keeps (d : Path) (mt : Memtable) (now : Nat) :
    Keeps (WritesAt now) (writeSSTable d mt now) := by
  rintro ⟨fs, faults⟩ (rfl : faults = [])
  have hq₁ : ∀ {q : Path}, q.stamp ≠ some now → q ≠ d.join (.sstable now) := fun hq e => hq (e ▸ rfl)
  have hq₂ : ∀ {q : Path}, q.stamp ≠ some now → q ≠ d.join (.index now) := fun hq e => hq (e ▸ rfl)
  by_cases hd : (fs.dirs d || (fs.files d).isSome) = true <;>
    rcases writeSSTable_cases d mt now fs with ⟨-, ix, h⟩ | ⟨-, h⟩ <;> rw [after, h] <;>
    exact ⟨rfl, fun q (hq : fs.dirs q = true) => by simp [hd, hq],
      fun q (hq : (fs.files q).isSome = true) => by
        by_cases h₁ : q = d.join (.sstable now) <;> by_cases h₂ : q = d.join (.index now) <;>
          simp [Fs.append_files, Fs.touch_files, hd, h₁, h₂, hq],
      fun q hq => by simp [Fs.append_files, Fs.touch_files, hd, hq₁ hq, hq₂ hq]⟩

theorem writeSSTable_ok {d : Path} {mt : Memtable} {now : Nat} {fs : Fs} {t : SSTable} {w' : World}
    (h : writeSSTable d mt now ⟨fs, []⟩ = .ok t w') :
    t.dataFilePath = d.join (.sstable now) ∧
      w'.fs.files t.dataFilePath = some ((fs.files t.dataFilePath).getD [] ++ dataBytes mt.index) := by
  rcases writeSSTable_cases d mt now fs with ⟨-, ix, h'⟩ | ⟨-, h'⟩ <;> rw [h'] at h <;> cases h
  refine ⟨rfl, ?_⟩
  have hdi : d.join (.sstable now) ≠ d.join (.index now) := by simp
  split <;> simp [Fs.append_files, Fs.touch_files, hdi]

theorem writeSSTable_succeeds (d : Path) (mt : Memtable) (now : Nat) (fs : Fs)
    (hfit : FitsBlocks mt.index.toList) : ∃ t w', writeSSTable d mt now ⟨fs, []⟩ = .ok t w' := by
  rcases writeSSTable_cases d mt now fs with ⟨-, ix, h⟩ | ⟨hn, -⟩
  · exact ⟨_, _, h⟩
  · exact absurd hfit hn

theorem metadataLenUnwrap_after (p : Path) (w : World) : (metadataLenUnwrap p).after w = w := by
  cases h : w.fs.files p <;> simp [after, metadataLenUnwrap, h]

theorem sumFileLens_eq (w : World) : ∀ ss : List SSTablePath,
    sumFileLens ss w = if ss.all fun s => (w.fs.files s.filePath).isSome
      then .ok (ss.map fun s => fileLen w.fs s.filePath).sum w
      else .error (.panic "called Result::unwrap() on an Err value") w
  | [] => rfl
  | s :: ss => by
    cases hs : w.fs.files s.filePath with
    | none => simp [sumFileLens, metadataLenUnwrap, hs, bind, EStateM.bind]
    | some c =>
      by_cases hall : (ss.all fun s => (w.fs.files s.filePath).isSome) = true <;>
        simp [sumFileLens, metadataLenUnwrap, hs, bind, EStateM.bind, sumFileLens_eq w ss, hall,
          fileLen, pure, EStateM.pure]

theorem sumFileLens_after (ss : List SSTablePath) (w : World) : (sumFileLens ss).after w = w := by
  by_cases hall : (ss.all fun s => (w.fs.files s.filePath).isSome) = true <;>
    simp only [after, sumFileLens_eq, hall, if_true, if_false, Bool.false_eq_true]

theorem writeIntoBucket_keeps (b : Bucket) (mt : Memtable) (hotness now : Nat) :
    Keeps (WritesAt now) (writeIntoBucket b mt hotness now) := by
  unfold writeIntoBucket
  exact WritesAt.keeps_bind (writeSSTable_keeps _ _ _) fun _ =>
    WritesAt.keeps_bind (keeps_readOnly (sumFileLens_after _)) fun _ => WritesAt.keeps_pure _

theorem writeIntoBucket_ok {b : Bucket} {mt : Memtable} {hotness now : Nat} {fs : Fs}
    {p : SSTablePath} {b' : Bucket} {w' : World}
    (h : writeIntoBucket b mt hotness now ⟨fs, []⟩ = .ok (p, b') w') :
    p = ⟨b.dir.join (.sstable now), hotness⟩ ∧
      w'.fs.files p.filePath = some ((fs.files p.filePath).getD [] ++ dataBytes mt.index) ∧
      b' = { b with
        sstables := (b.sstables ++ [p]).map SSTablePath.increaseHotness
        avarageSize := ((b.sstables ++ [p]).map fun s => fileLen w'.fs s.filePath).sum /
          (b.sstables.length + 1) } := by
  obtain ⟨t, w₁, ht, h⟩ := bind_eq_ok h
  obtain ⟨n, w₂, hn, h⟩ := bind_eq_ok h
  obtain ⟨hp, rfl⟩ := pure_eq_ok h
  obtain ⟨hd, hfile⟩ := writeSSTable_ok ht
  rw [sumFileLens_eq] at hn
  split at hn <;> cases hn
  cases hp
  refine ⟨by rw [hd], hfile, ?_⟩
  simp [List.map_map, Function.comp_def]

theorem writeIntoBucket_succeeds (b : Bucket) (mt : Memtable) (hotness now : Nat) {fs : Fs}
    (hfit : FitsBlocks mt.index.toList) (hfiles : ∀ s ∈ b.sstables, (fs.files s.filePath).isSome) :
    ∃ p b' w', writeIntoBucket b mt hotness now ⟨fs, []⟩ = .ok (p, b') w' := by
  obtain ⟨t, w₁, ht⟩ := writeSSTable_succeeds b.dir mt now fs hfit
  obtain ⟨-, -, hkeep, -⟩ := (writeSSTable_keeps b.dir mt now).of_ok ht rfl
  have hnew := (writeSSTable_ok ht).2
  have hall : (((b.sstables ++ [(⟨t.dataFilePath, hotness⟩ : SSTablePath)]).map
      SSTablePath.increaseHotness).all
      fun s => (w₁.fs.files s.filePath).isSome) = true := by
    refine List.all_eq_true.mpr fun x hx => ?_
    obtain ⟨s, hs, rfl⟩ := List.mem_map.mp hx
    rcases List.mem_append.mp hs with hs | hs
    · exact hkeep _ (hfiles s hs)
    · simp [List.mem_singleton.mp hs, hnew]
  simp only [writeIntoBucket, bind, EStateM.bind, ht, sumFileLens_eq, Bucket.push_sstables, hall, if_true]
  exact ⟨_, _, _, rfl⟩

theorem placeInBuckets_keeps (mt : Memtable) (hotness now : Nat) :
    ∀ bs, Keeps (WritesAt now) (placeInBuckets mt hotness now bs)
  | [] => WritesAt.keeps_pure _
  | b :: bs => by
    rw [placeInBuckets]
    split
    · exact WritesAt.keeps_bind (writeIntoBucket_keeps _ _ _ _) fun ⟨_, _⟩ => WritesAt.keeps_pure _
    · exact WritesAt.keeps_bind (placeInBuckets_keeps mt hotness now bs) fun
        | none => WritesAt.keeps_pure _
        | some ⟨_, _⟩ => WritesAt.keeps_pure _

theorem placeInBuckets_ok_none {mt : Memtable} {hotness now : Nat} :
    ∀ {bs : List Bucket} {w w' : World}, placeInBuckets mt hotness now bs w = .ok none w' →
      w' = w ∧ ∀ x ∈ bs, fitsBucket x.avarageSize mt.size = false
  | [], _, _, h => ⟨(pure_eq_ok h).2.symm, by simp⟩
  | b :: bs, w, w', h => by
    rw [placeInBuckets] at h
    split at h
    · obtain ⟨⟨_, _⟩, _, _, h⟩ := bind_eq_ok h
      cases (pure_eq_ok h).1
    · rename_i hb
      obtain ⟨r, w₁, hr, h⟩ := bind_eq_ok h
      rcases r with _ | ⟨_, _⟩ <;> obtain ⟨he, rfl⟩ := pure_eq_ok h
      · obtain ⟨rfl, hbs⟩ := placeInBuckets_ok_none hr
        exact ⟨rfl, List.forall_mem_cons.mpr ⟨by simpa using hb, hbs⟩⟩
      · cases he

theorem placeInBuckets_ok_some {mt : Memtable} {hotness now : Nat} :
    ∀ {bs : List Bucket} {w w' : World} {p : SSTablePath} {bs' : List Bucket},
      placeInBuckets mt hotness now bs w = .ok (some (p, bs')) w' →
      ∃ pre b post b', bs = pre ++ b :: post ∧
        (∀ x ∈ pre, fitsBucket x.avarageSize mt.size = false) ∧
        fitsBucket b.avarageSize mt.size = true ∧
        writeIntoBucket b mt hotness now w = .ok (p, b') w' ∧ bs' = pre ++ b' :: post
  | [], _, _, _, _, h => by cases (pure_eq_ok h).1
  | b :: bs, w, w', p, bs', h => by
    rw [placeInBuckets] at h
    split at h
    · rename_i hb
      obtain ⟨⟨p₀, b₀⟩, w₁, hw, h⟩ := bind_eq_ok h
      obtain ⟨he, rfl⟩ := pure_eq_ok h
      cases he
      exact ⟨[], b, bs, b₀, rfl, by simp, hb, hw, rfl⟩
    · rename_i hb
      obtain ⟨r, w₁, hr, h⟩ := bind_eq_ok h
      rcases r with _ | ⟨p₀, bs₀⟩ <;> obtain ⟨he, rfl⟩ := pure_eq_ok h
      · cases he
      · cases he
        obtain ⟨pre, b₁, post, b', rfl, hpre, hb₁, hw, rfl⟩ := placeInBuckets_ok_some hr
        exact ⟨b :: pre, b₁, post, b', rfl, List.forall_mem_cons.mpr ⟨by simpa using hb, hpre⟩,
          hb₁, hw, rfl⟩

theorem placeInBuckets_succeeds (mt : Memtable) (hotness now : Nat) {fs : Fs}
    (hfit : FitsBlocks mt.index.toList) : ∀ bs : List Bucket,
    (∀ b ∈ bs, ∀ s ∈ b.sstables, (fs.files s.filePath).isSome) →
    ∃ r w', placeInBuckets mt hotness now bs ⟨fs, []⟩ = .ok r w'
  | [], _ => ⟨_, _, rfl⟩
  | b :: bs, h => by
    rw [placeInBuckets]
    split
    · obtain ⟨p, b', w', hw⟩ := writeIntoBucket_succeeds b mt hotness now hfit
        (h b (List.mem_cons_self _ _))
      simp only [bind, EStateM.bind, hw]
      exact ⟨_, _, rfl⟩
    · obtain ⟨r, w', hr⟩ := placeInBuckets_succeeds mt hotness now hfit bs fun x hx => h x (List.mem_cons_of_mem _ hx)
      simp only [bind, EStateM.bind, hr]
      rcases r with _ | ⟨_, _⟩ <;> exact ⟨_, _, rfl⟩

theorem placeInBuckets_of_pushedInPlace {mt : Memtable} {hotness now : Nat} {w : World} :
    ∀ {bs : List Bucket} {p : SSTablePath} {bs' : List Bucket},
      pushedInPlace mt hotness now w bs = some (p, bs') →
      ∃ pre b post t w₁, bs = pre ++ b :: post ∧ bs' = pre ++ b.push p :: post ∧
        (∀ x ∈ pre, fitsBucket x.avarageSize mt.size = false) ∧
        fitsBucket b.avarageSize mt.size = true ∧ p = ⟨t.dataFilePath, hotness⟩ ∧
        writeSSTable b.dir mt now w = .ok t w₁ ∧
        ∀ w₀ w₀', writeSSTable b.dir mt now w₀ = .ok t w₀' →
          pushedInPlace mt hotness now w₀ bs = some (p, bs') ∧
          placeInBuckets mt hotness now bs w₀ =
            if (b.push p).sstables.all fun s => (w₀'.fs.files s.filePath).isSome
            then .ok (some (p, pre ++ { b.push p with avarageSize :=
              ((b.push p).sstables.map fun s => fileLen w₀'.fs s.filePath).sum /
                (b.push p).sstables.length } :: post)) w₀'
            else .error (.panic "called Result::unwrap() on an Err value") w₀'
  | [], _, _, h => by cases h
  | b :: bs, p, bs', h => by
    rw [pushedInPlace] at h
    by_cases hb : fitsBucket b.avarageSize mt.size = true
    · rw [if_pos hb] at h
      cases ht : writeSSTable b.dir mt now w with
      | error e w₁ => rw [ht] at h; cases h
      | ok t w₁ =>
        rw [ht] at h
        cases h
        refine ⟨[], b, bs, t, w₁, rfl, rfl, by simp, hb, rfl, ht, fun w₀ w₀' ht₀ => ⟨?_, ?_⟩⟩
        · simp only [pushedInPlace, if_pos hb, ht₀]
        · simp only [placeInBuckets, if_pos hb, writeIntoBucket, bind, EStateM.bind, ht₀,
            sumFileLens_eq]
          split_ifs <;> rfl
    · rw [if_neg hb] at h
      obtain ⟨⟨p₀, bs₀⟩, h₀, he⟩ := Option.map_eq_some'.mp h
      cases he
      obtain ⟨pre, b₁, post, t, w₁, rfl, rfl, hpre, hb₁, hp, ht, hall⟩ := placeInBuckets_of_pushedInPlace h₀
      refine ⟨b :: pre, b₁, post, t, w₁, rfl, rfl, List.forall_mem_cons.mpr ⟨by simpa using hb, hpre⟩,
        hb₁, hp, ht, fun w₀ w₀' ht₀ => ?_⟩
      obtain ⟨hpush, heq⟩ := hall w₀ w₀' ht₀
      refine ⟨by simp only [pushedInPlace, if_neg hb, hpush, Option.map_some'], ?_⟩
      simp only [placeInBuckets, if_neg hb, bind, EStateM.bind, heq]
      split_ifs <;> rfl

theorem Bucket.new_eq (dir : Path) (bucketId : Uuid) (w : World) :
    Bucket.new dir bucketId w =
      if w.fs.dirs (dir.join (.bucket bucketId)) || (w.fs.files (dir.join (.bucket bucketId))).isSome
      then .error (.panic "Unable to create file") w
      else .ok ⟨bucketId, dir.join (.bucket bucketId), 0, []⟩
        { w with fs := w.fs.addDir (dir.join (.bucket bucketId)) } := by
  by_cases hd : (w.fs.dirs (dir.join (.bucket bucketId)) ||
      (w.fs.files (dir.join (.bucket bucketId))).isSome) = true <;>
    simp only [Bucket.new, bind, EStateM.bind, createDir, hd, if_true, if_false, Bool.false_eq_true,
      pure, EStateM.pure]

theorem Bucket.new_keeps (dir : Path) (bucketId : Uuid) (now : Nat) :
    Keeps (WritesAt now) (Bucket.new dir bucketId) := fun w => by
  by_cases hd : (w.fs.dirs (dir.join (.bucket bucketId)) ||
      (w.fs.files (dir.join (.bucket bucketId))).isSome) = true <;>
    simp only [after, Bucket.new_eq, hd, if_true, if_false, Bool.false_eq_true]
  · exact WritesAt.refl w
  · exact fun h => ⟨h, fun q hq => by simp [hq], fun _ h => h, fun _ _ => rfl⟩

namespace BucketMap

def new (dir : Path) : BucketMap := ⟨dir, []⟩

/-- `insert_to_appropriate_bucket`. `Uuid::new_v4()` and the clock reading `SSTable::new`
takes are arguments. `added_to_bucket` is never set, so when no bucket matches a new one is
made, and the closing `Err` cannot be reached. -/
def insertToAppropriateBucket (m : BucketMap) (memtable : Memtable) (hotness : Nat)
    (bucketId : Uuid) (now : Nat) : Io (SSTablePath × BucketMap) := do
  match ← placeInBuckets memtable hotness now m.buckets with
  | some (sstablePath, buckets) => pure (sstablePath, { m with buckets })
  | none =>
    let bucket ← Bucket.new m.dir bucketId
    let sstable ← writeSSTable bucket.dir memtable now
    let sstablePath : SSTablePath := ⟨sstable.dataFilePath, 1⟩
    let avarageSize ← metadataLenUnwrap sstable.dataFilePath
    let bucket := { bucket with sstables := [sstablePath], avarageSize }
    pure (sstablePath, { m with buckets := insertBucket m.buckets bucket })

theorem insertToAppropriateBucket_keeps (m : BucketMap) (mt : Memtable) (hotness : Nat)
    (bucketId : Uuid) (now : Nat) :
    Keeps (WritesAt now) (m.insertToAppropriateBucket mt hotness bucketId now) := by
  unfold insertToAppropriateBucket
  refine WritesAt.keeps_bind (placeInBuckets_keeps _ _ _ _) fun
    | none => ?_
    | some ⟨_, _⟩ => WritesAt.keeps_pure _
  exact WritesAt.keeps_bind (Bucket.new_keeps _ _ _) fun _ =>
    WritesAt.keeps_bind (writeSSTable_keeps _ _ _) fun _ =>
      WritesAt.keeps_bind (keeps_readOnly (metadataLenUnwrap_after _)) fun _ => WritesAt.keeps_pure _

theorem insertToAppropriateBucket_ok {m : BucketMap} {mt : Memtable} {hotness bucketId now : Nat}
    {fs : Fs} {p : SSTablePath} {m' : BucketMap} {w' : World}
    (h : m.insertToAppropriateBucket mt hotness bucketId now ⟨fs, []⟩ = .ok (p, m') w') :
    m'.dir = m.dir ∧ w'.faults = [] ∧
      w'.fs.files p.filePath = some ((fs.files p.filePath).getD [] ++ dataBytes mt.index) ∧
      ((∃ pre b post, m.buckets = pre ++ b :: post ∧
          (∀ x ∈ pre, fitsBucket x.avarageSize mt.size = false) ∧
          fitsBucket b.avarageSize mt.size = true ∧ p = ⟨b.dir.join (.sstable now), hotness⟩ ∧
          m'.buckets = pre ++ { b with
            sstables := (b.sstables ++ [p]).map SSTablePath.increaseHotness
            avarageSize := ((b.sstables ++ [p]).map fun s => fileLen w'.fs s.filePath).sum /
              (b.sstables.length + 1) } :: post) ∨
        ((∀ x ∈ m.buckets, fitsBucket x.avarageSize mt.size = false) ∧
          (fs.dirs (m.dir.join (.bucket bucketId)) ||
            (fs.files (m.dir.join (.bucket bucketId))).isSome) = false ∧
          w'.fs.dirs (m.dir.join (.bucket bucketId)) = true ∧
          p = ⟨(m.dir.join (.bucket bucketId)).join (.sstable now), 1⟩ ∧
          m'.buckets = insertBucket m.buckets
            ⟨bucketId, m.dir.join (.bucket bucketId), fileLen w'.fs p.filePath, [p]⟩)) := by
  have hw := (insertToAppropriateBucket_keeps m mt hotness bucketId now).of_ok h rfl
  obtain ⟨r, w₁, hr, h⟩ := bind_eq_ok h
  rcases r with _ | ⟨p₀, bs⟩
  · obtain ⟨rfl, hnone⟩ := placeInBuckets_ok_none hr
    obtain ⟨b, w₂, hb, h⟩ := bind_eq_ok h
    obtain ⟨t, w₃, ht, h⟩ := bind_eq_ok h
    obtain ⟨n, w₄, hn, h⟩ := bind_eq_ok h
    obtain ⟨he, rfl⟩ := pure_eq_ok h
    rw [Bucket.new_eq] at hb
    split at hb
    · cases hb
    rename_i hdir
    cases hb
    obtain ⟨hd, hfile⟩ := writeSSTable_ok ht
    have hdir' := ((writeSSTable_keeps _ _ _).of_ok ht rfl).2.1 (m.dir.join (.bucket bucketId))
      (by simp)
    simp only [metadataLenUnwrap, hfile] at hn
    cases hn
    cases he
    refine ⟨rfl, hw.1, ?_, .inr ⟨hnone, by simpa using hdir, hdir', by rw [hd], ?_⟩⟩
    · simpa [hd, Fs.addDir] using hfile
    · simp [fileLen, hfile]
  · obtain ⟨he, rfl⟩ := pure_eq_ok h
    cases he
    obtain ⟨pre, b, post, b', hbs, hpre, hb, hwb, rfl⟩ := placeInBuckets_ok_some hr
    obtain ⟨rfl, hfile, rfl⟩ := writeIntoBucket_ok hwb
    exact ⟨rfl, hw.1, hfile, .inl ⟨pre, b, post, hbs, hpre, hb, rfl, rfl⟩⟩

theorem insertToAppropriateBucket_of_pushedInPlace {m : BucketMap} {mt : Memtable}
    {hotness now : Nat} {w : World} {p : SSTablePath} {bs : List Bucket} (bucketId : Uuid)
    (h : pushedInPlace mt hotness now w m.buckets = some (p, bs)) :
    ∃ pre b post t w₁, m.buckets = pre ++ b :: post ∧ bs = pre ++ b.push p :: post ∧
      (∀ x ∈ pre, fitsBucket x.avarageSize mt.size = false) ∧
      fitsBucket b.avarageSize mt.size = true ∧ p = ⟨t.dataFilePath, hotness⟩ ∧
      writeSSTable b.dir mt now w = .ok t w₁ ∧
      ∀ w₀ w₀', writeSSTable b.dir mt now w₀ = .ok t w₀' →
        pushedInPlace mt hotness now w₀ m.buckets = some (p, bs) ∧
        m.insertToAppropriateBucket mt hotness bucketId now w₀ =
          if (b.push p).sstables.all fun s => (w₀'.fs.files s.filePath).isSome
          then .ok (p, { m with buckets := pre ++ { b.push p with avarageSize :=
            ((b.push p).sstables.map fun s => fileLen w₀'.fs s.filePath).sum /
              (b.push p).sstables.length } :: post }) w₀'
          else .error (.panic "called Result::unwrap() on an Err value") w₀' := by
  obtain ⟨pre, b, post, t, w₁, hbs, hbs', hpre, hb, hp, ht, hall⟩ := placeInBuckets_of_pushedInPlace h
  refine ⟨pre, b, post, t, w₁, hbs, hbs', hpre, hb, hp, ht, fun w₀ w₀' ht₀ => ?_⟩
  obtain ⟨hpush, heq⟩ := hall w₀ w₀' ht₀
  refine ⟨hpush, ?_⟩
  simp only [insertToAppropriateBucket, bind, EStateM.bind, heq]
  split_ifs <;> rfl

theorem insertToAppropriateBucket_stamp {m : BucketMap} {mt : Memtable}
    {hotness bucketId now : Nat} {fs : Fs} {p : SSTablePath} {m' : BucketMap} {w' : World}
    (h : m.insertToAppropriateBucket mt hotness bucketId now ⟨fs, []⟩ = .ok (p, m') w') :
    p.filePath.stamp = some now := by
  rcases (insertToAppropriateBucket_ok h).2.2.2 with ⟨-, -, -, -, -, -, rfl, -⟩ | ⟨-, -, -, rfl, -⟩ <;>
    rfl

theorem insertToAppropriateBucket_succeeds {m : BucketMap} {mt : Memtable}
    {hotness bucketId now : Nat} {fs : Fs} (hfit : FitsBlocks mt.index.toList)
    (hfiles : ∀ b ∈ m.buckets, ∀ s ∈ b.sstables, (fs.files s.filePath).isSome)
    (hdir : (∀ b ∈ m.buckets, fitsBucket b.avarageSize mt.size = false) →
      (fs.dirs (m.dir.join (.bucket bucketId)) ||
        (fs.files (m.dir.join (.bucket bucketId))).isSome) = false) :
    ∃ p m' w', m.insertToAppropriateBucket mt hotness bucketId now ⟨fs, []⟩ = .ok (p, m') w' := by
  obtain ⟨r, w₁, hr⟩ := placeInBuckets_succeeds mt hotness now hfit _ hfiles
  rcases r with _ | ⟨p, bs⟩
  · obtain ⟨rfl, hnone⟩ := placeInBuckets_ok_none hr
    have hdir := hdir hnone
    obtain ⟨t, w₂, ht⟩ := writeSSTable_succeeds (m.dir.join (.bucket bucketId)) mt now
      (fs.addDir (m.dir.join (.bucket bucketId))) hfit
    have hfile := (writeSSTable_ok ht).2
    simp only [insertToAppropriateBucket, bind, EStateM.bind, hr, Bucket.new_eq, hdir,
      Bool.false_eq_true, if_false]
    simp only [ht, metadataLenUnwrap, hfile]
    exact ⟨_, _, _, rfl⟩
  · simp only [insertToAppropriateBucket, bind, EStateM.bind, hr]
    exact ⟨_, _, _, rfl⟩

end BucketMap

/-- `sstables[0..n]`, which panics past the end. -/
def slicePrefix (l : List SSTablePath) (n : Nat) : Except StorageEngineError (List SSTablePath) :=
  if n ≤ l.length then .ok (l.take n)
  else .error (.panic ("range end index " ++ toString n ++ " out of range for slice of length " ++
    toString l.length))

/-- The `for_each` of `extract_buckets_to_compact` over the buckets the filter lets through. -/
def extractFrom : List Bucket → Except StorageEngineError (List Bucket × List (Uuid × List SSTablePath))
  | [] => pure ([], [])
  | b :: bs => do
    let toDelete ← if maxTreshold < b.sstables.length then
        do pure [(b.id, ← slicePrefix b.sstables maxTreshold)]
      else pure []
    let sstables ← slicePrefix b.sstables maxTreshold
    let (bucketsToCompact, sstablesToDelete) ← extractFrom bs
    pure ({ b with sstables } :: bucketsToCompact, toDelete ++ sstablesToDelete)

/-- The first loop of `delete_sstables`: each bucket named keeps `sstables[0..MAX_TRESHOLD]`. -/
def keepPrefixes (buckets : List Bucket) :
    List (Uuid × List SSTablePath) → Except StorageEngineError (List Bucket)
  | [] => pure buckets
  | (id, _) :: rest => do
    let some bucket := buckets.find? (·.id = id)
      | throw (.panic "called Option::unwrap() on a None value")
    let sstablesRemaining ← slicePrefix bucket.sstables maxTreshold
    keepPrefixes (insertBucket buckets { bucket with sstables := sstablesRemaining }) rest

/-- The buckets the first loop has replaced in place when it panics: as the iterations before the
panicking one left them. -/
def keptInPlace (buckets : List Bucket) : List (Uuid × List SSTablePath) → List Bucket
  | [] => buckets
  | (id, _) :: rest =>
    match buckets.find? (·.id = id) with
    | none => buckets
    | some bucket =>
      match slicePrefix bucket.sstables maxTreshold with
      | .ok sstablesRemaining =>
        keptInPlace (insertBucket buckets { bucket with sstables := sstablesRemaining }) rest
      | .error _ => buckets

/-- The second loop: each listed data file is removed; a failure is printed and passed over. -/
def removeDataFiles : List SSTablePath → Io Unit
  | [] => pure ()
  | s :: ss => do
    ignoreResult (removeFile s.filePath)
    removeDataFiles ss

namespace BucketMap

/-- `extract_buckets_to_compact`: every bucket with at least `MIN_TRESHOLD` tables goes to
compaction with `sstables[0..MAX_TRESHOLD]`, and the same slice is listed for deletion when the
bucket holds more than `MAX_TRESHOLD`. -/
def extractBucketsToCompact (m : BucketMap) :
    Except StorageEngineError (List Bucket × List (Uuid × List SSTablePath)) :=
  extractFrom (m.buckets.filter fun b => minTreshold ≤ b.sstables.length)

/-- `delete_sstables`. -/
def deleteSstables (m : BucketMap) (sstablesToDelete : List (Uuid × List SSTablePath)) :
    Io BucketMap := do
  let buckets ← MonadExcept.ofExcept (keepPrefixes m.buckets sstablesToDelete)
  removeDataFiles (sstablesToDelete.map Prod.snd).flatten
  pure { m with buckets }

end BucketMap

theorem slicePrefix_of_le {l : List SSTablePath} {n : Nat} (h : n ≤ l.length) :
    slicePrefix l n = .ok (l.take n) := by
  simp [slicePrefix, h]

theorem slicePrefix_of_lt {l : List SSTablePath} {n : Nat} (h : l.length < n) :
    ∃ e, slicePrefix l n = .error e := by
  simp [slicePrefix, Nat.not_le.mpr h]

theorem extractFrom_ok : ∀ (bs : List Bucket), (∀ b ∈ bs, maxTreshold ≤ b.sstables.length) →
    extractFrom bs = .ok (bs.map fun b => { b with sstables := b.sstables.take maxTreshold },
      (bs.filter fun b => maxTreshold < b.sstables.length).map
        fun b => (b.id, b.sstables.take maxTreshold))
  | [], _ => rfl
  | b :: bs, h => by
    have hb := h b (List.mem_cons_self _ _)
    by_cases hlt : maxTreshold < b.sstables.length <;>
      simp [extractFrom, slicePrefix_of_le hb, hlt,
        extractFrom_ok bs (fun x hx => h x (List.mem_cons_of_mem _ hx)), bind, Except.bind, pure,
        Except.pure]

theorem extractFrom_of_short : ∀ {bs : List Bucket}, (∃ b ∈ bs, b.sstables.length < maxTreshold) →
    ∃ e, extractFrom bs = .error e
  | b :: bs, ⟨x, hx, hshort⟩ => by
    by_cases hb : b.sstables.length < maxTreshold
    · obtain ⟨e, he⟩ := slicePrefix_of_lt hb
      exact ⟨e, by simp [extractFrom, Nat.not_lt.mpr hb.le, he, bind, Except.bind, pure, Except.pure]⟩
    · rcases List.mem_cons.mp hx with rfl | hx
      · exact absurd hshort hb
      obtain ⟨e, he⟩ := extractFrom_of_short ⟨x, hx, hshort⟩
      refine ⟨e, ?_⟩
      by_cases hlt : maxTreshold < b.sstables.length <;>
        simp [extractFrom, slicePrefix_of_le (Nat.not_lt.mp hb), hlt, he, bind, Except.bind, pure,
          Except.pure]

theorem extractFrom_eq_ok_iff (bs c : List Bucket) (d : List (Uuid × List SSTablePath)) :
    extractFrom bs = .ok (c, d) ↔ (∀ b ∈ bs, maxTreshold ≤ b.sstables.length) ∧
      c = bs.map (fun b => { b with sstables := b.sstables.take maxTreshold }) ∧
      d = (bs.filter fun b => maxTreshold < b.sstables.length).map
        fun b => (b.id, b.sstables.take maxTreshold) := by
  refine ⟨fun hok => ?_, fun ⟨h, hc, hd⟩ => hc ▸ hd ▸ extractFrom_ok bs h⟩
  by_cases h : ∀ b ∈ bs, maxTreshold ≤ b.sstables.length
  · rw [extractFrom_ok bs h] at hok
    cases hok
    exact ⟨h, rfl, rfl⟩
  · obtain ⟨e, he⟩ := extractFrom_of_short (by push_neg at h; exact h)
    rw [he] at hok
    cases hok

theorem filter_max_of_filter_min (bs : List Bucket) :
    ((bs.filter fun b => minTreshold ≤ b.sstables.length).filter
      fun b => maxTreshold < b.sstables.length) =
      bs.filter fun b => maxTreshold < b.sstables.length := by
  rw [List.filter_filter]
  refine List.filter_congr fun b _ => ?_
  by_cases h : maxTreshold < b.sstables.length
  · have h4 : minTreshold ≤ b.sstables.length := by
      simp only [minTreshold, maxTreshold] at h ⊢; omega
    simp [h, h4]
  · simp [h]

/-- What `delete_sstables` leaves of a bucket: `sstables[0..MAX_TRESHOLD]` when the deletion
list names it. -/
def keepPrefixOf (ids : List Uuid) (b : Bucket) : Bucket :=
  if b.id ∈ ids then { b with sstables := b.sstables.take maxTreshold } else b

@[simp] theorem keepPrefixOf_nil : keepPrefixOf [] = id := by
  funext b; simp [keepPrefixOf]

@[simp] theorem keepPrefixOf_id (ids : List Uuid) (b : Bucket) : (keepPrefixOf ids b).id = b.id := by
  unfold keepPrefixOf; split <;> rfl

theorem keepPrefixOf_cons (id : Uuid) (ids : List Uuid) (b : Bucket) :
    keepPrefixOf ids (keepPrefixOf [id] b) = keepPrefixOf (id :: ids) b := by
  by_cases h : b.id = id <;> by_cases h' : b.id ∈ ids <;> simp [keepPrefixOf, h, h']

theorem insertBucket_found {bs : List Bucket} (hid : (bs.map Bucket.id).Nodup) {b : Bucket}
    (hb : b ∈ bs) (l : List SSTablePath) :
    insertBucket bs { b with sstables := l } =
      bs.map fun x => if x.id = b.id then { x with sstables := l } else x := by
  have hany : bs.any (·.id = b.id) = true := List.any_eq_true.mpr ⟨b, hb, by simp⟩
  simp only [insertBucket, hany, if_true]
  refine List.map_congr_left fun x hx => ?_
  by_cases hx' : x.id = b.id
  · simp [hx', List.inj_on_of_nodup_map hid hx hb hx']
  · simp [hx']

private theorem map_keepPrefixOf_single {bs : List Bucket} (hid : (bs.map Bucket.id).Nodup)
    {b : Bucket} (hb : b ∈ bs) :
    insertBucket bs { b with sstables := b.sstables.take maxTreshold } =
      bs.map (keepPrefixOf [b.id]) := by
  rw [insertBucket_found hid hb]
  refine List.map_congr_left fun x hx => ?_
  by_cases hx' : x.id = b.id
  · simp [keepPrefixOf, hx', List.inj_on_of_nodup_map hid hx hb hx']
  · simp [keepPrefixOf, hx']

theorem keepPrefixes_eq_ok_iff : ∀ {D : List (Uuid × List SSTablePath)} {bs bs' : List Bucket},
    (bs.map Bucket.id).Nodup →
    (keepPrefixes bs D = .ok bs' ↔
      (∀ d ∈ D, ∃ b ∈ bs, b.id = d.1 ∧ maxTreshold ≤ b.sstables.length) ∧
        bs' = bs.map (keepPrefixOf (D.map Prod.fst)))
  | [], bs, bs', _ => by
    simp [keepPrefixes, pure, Except.pure, eq_comm]
  | (id, ps) :: rest, bs, bs', hid => by
    rw [keepPrefixes]
    cases hf : bs.find? (·.id = id) with
    | none =>
      have hnone := List.find?_eq_none.mp hf
      simp only [throw, throwThe, MonadExceptOf.throw, Except.bind, bind]
      refine ⟨fun h => (by cases h), fun ⟨h, _⟩ => ?_⟩
      obtain ⟨b, hb, hid', -⟩ := h (id, ps) (List.mem_cons_self _ _)
      exact absurd (by simpa using hid') (hnone b hb)
    | some b₁ =>
      have hb₁ := List.mem_of_find?_eq_some hf
      have hid₁ : b₁.id = id := by simpa using List.find?_some hf
      subst hid₁
      by_cases hlen : maxTreshold ≤ b₁.sstables.length
      · have hbs₁ := map_keepPrefixOf_single hid hb₁
        have hid' : ((bs.map (keepPrefixOf [b₁.id])).map Bucket.id).Nodup := by
          simpa [List.map_map, Function.comp_def] using hid
        simp only [bind, Except.bind, slicePrefix_of_le hlen, hbs₁, keepPrefixes_eq_ok_iff hid',
          List.map_map, Function.comp_def, keepPrefixOf_cons, List.map_cons, List.forall_mem_cons]
        refine and_congr ⟨fun h => ⟨⟨b₁, hb₁, rfl, hlen⟩, fun d hd => ?_⟩, fun h => fun d hd => ?_⟩ Iff.rfl
        · obtain ⟨x, hx, hxd, hxl⟩ := h d hd
          obtain ⟨y, hy, rfl⟩ := List.mem_map.mp hx
          refine ⟨y, hy, by simpa using hxd, ?_⟩
          by_cases hy' : y.id = b₁.id
          · rw [List.inj_on_of_nodup_map hid hy hb₁ hy']; exact hlen
          · simpa [keepPrefixOf, hy'] using hxl
        · obtain ⟨y, hy, hyd, hyl⟩ := h.2 d hd
          refine ⟨keepPrefixOf [b₁.id] y, List.mem_map_of_mem _ hy, by simpa using hyd, ?_⟩
          by_cases hy' : y.id = b₁.id <;> simp [keepPrefixOf, hy', hyl]
      · simp only [bind, Except.bind]
        obtain ⟨e, he⟩ := slicePrefix_of_lt (Nat.not_le.mp hlen)
        rw [he]
        refine ⟨fun h => (by cases h), fun ⟨h, _⟩ => ?_⟩
        obtain ⟨b, hb, hbid, hbl⟩ := h _ (List.mem_cons_self _ _)
        exact (hlen (List.inj_on_of_nodup_map hid hb hb₁ hbid ▸ hbl)).elim

theorem removeDataFiles_ok : ∀ (ss : List SSTablePath) (w : World), ∃ fs',
    removeDataFiles ss w = .ok () ⟨fs', w.faults⟩ ∧ fs'.dirs = w.fs.dirs ∧
      ∀ q, fs'.files q = if q ∈ ss.map SSTablePath.filePath then none else w.fs.files q
  | [], w => ⟨w.fs, rfl, rfl, by simp⟩
  | s :: ss, w => by
    obtain ⟨fs₁, h₁, hd₁, hf₁⟩ : ∃ fs₁, ignoreResult (removeFile s.filePath) w =
        .ok () ⟨fs₁, w.faults⟩ ∧ fs₁.dirs = w.fs.dirs ∧
          ∀ q, fs₁.files q = if q = s.filePath then none else w.fs.files q := by
      cases hs : w.fs.files s.filePath
      · exact ⟨w.fs, by simp [ignoreResult, removeFile, hs], rfl, fun q => by split <;> simp_all⟩
      · exact ⟨w.fs.setFile s.filePath none, by simp [ignoreResult, removeFile, hs], rfl,
          fun q => by simp⟩
    obtain ⟨fs', h', hd', hf'⟩ := removeDataFiles_ok ss ⟨fs₁, w.faults⟩
    refine ⟨fs', by simp only [removeDataFiles, bind, EStateM.bind, h₁, h'], hd'.trans hd₁,
      fun q => ?_⟩
    rw [hf', hf₁]
    by_cases h₁ : q = s.filePath <;> by_cases h₂ : q ∈ ss.map SSTablePath.filePath <;> simp [h₁, h₂]

namespace BucketMap

/-- With ids unique, the first loop stopped anywhere has cut the buckets it named before. -/
theorem keptInPlace_eq : ∀ {D : List (Uuid × List SSTablePath)} {bs : List Bucket},
    (bs.map Bucket.id).Nodup → ∃ ids, keptInPlace bs D = bs.map (keepPrefixOf ids)
  | [], bs, _ => ⟨[], by simp [keptInPlace]⟩
  | (id, _) :: rest, bs, hid => by
    rw [keptInPlace]
    cases hf : bs.find? (·.id = id) with
    | none => exact ⟨[], by simp⟩
    | some b₁ =>
      by_cases hlen : maxTreshold ≤ b₁.sstables.length
      · have hid' : ((bs.map (keepPrefixOf [b₁.id])).map Bucket.id).Nodup := by
          simpa [List.map_map, Function.comp_def] using hid
        obtain ⟨ids, h⟩ := keptInPlace_eq (D := rest) hid'
        refine ⟨b₁.id :: ids, ?_⟩
        simp only [slicePrefix_of_le hlen, map_keepPrefixOf_single hid (List.mem_of_find?_eq_some hf),
          h, List.map_map, Function.comp_def, keepPrefixOf_cons]
      · obtain ⟨e, he⟩ := slicePrefix_of_lt (Nat.not_le.mp hlen)
        exact ⟨[], by simp [he]⟩

theorem deleteSstables_cases (m : BucketMap) (D : List (Uuid × List SSTablePath)) (w : World)
    (hid : (m.buckets.map Bucket.id).Nodup) :
    ((∀ d ∈ D, ∃ b ∈ m.buckets, b.id = d.1 ∧ maxTreshold ≤ b.sstables.length) ∧
      ∃ fs', m.deleteSstables D w =
          .ok { m with buckets := m.buckets.map (keepPrefixOf (D.map Prod.fst)) } ⟨fs', w.faults⟩ ∧
        fs'.dirs = w.fs.dirs ∧
        ∀ q, fs'.files q = if q ∈ (D.map Prod.snd).flatten.map SSTablePath.filePath then none
          else w.fs.files q) ∨
    ((¬ ∀ d ∈ D, ∃ b ∈ m.buckets, b.id = d.1 ∧ maxTreshold ≤ b.sstables.length) ∧
      ∃ e, m.deleteSstables D w = .error e w) := by
  cases hk : keepPrefixes m.buckets D with
  | error e =>
    refine .inr ⟨fun h => ?_, e, by simp [deleteSstables, bind, EStateM.bind, MonadExcept.ofExcept, hk,
      throw, throwThe, MonadExceptOf.throw, EStateM.throw]⟩
    have := (keepPrefixes_eq_ok_iff hid).mpr ⟨h, rfl⟩
    rw [hk] at this
    cases this
  | ok bs =>
    obtain ⟨hpre, rfl⟩ := (keepPrefixes_eq_ok_iff hid).mp hk
    obtain ⟨fs', hr, hd, hf⟩ := removeDataFiles_ok (D.map Prod.snd).flatten w
    exact .inl ⟨hpre, fs', by simp [deleteSstables, bind, EStateM.bind, MonadExcept.ofExcept, hk, hr,
      pure, EStateM.pure], hd, hf⟩

/-- A bucket holding from `MIN_TRESHOLD` to `MAX_TRESHOLD - 1` tables makes
`extract_buckets_to_compact` panic: it slices `sstables[0..MAX_TRESHOLD]` of every bucket it
takes. -/
theorem extractBucketsToCompact_of_short (m : BucketMap) {b : Bucket} (hb : b ∈ m.buckets)
    (hmin : minTreshold ≤ b.sstables.length) (hmax : b.sstables.length < maxTreshold) :
    ∃ e, m.extractBucketsToCompact = .error e :=
  extractFrom_of_short ⟨b, List.mem_filter.mpr ⟨hb, by simpa using hmin⟩, hmax⟩

/-- One bucket `db/bucket0` holding four tables. -/
def fourTables : BucketMap :=
  ⟨Path.root.join (.named "db"), [⟨0, (Path.root.join (.named "db")).join (.bucket 0), 18,
    (List.range 4).map fun t => ⟨((Path.root.join (.named "db")).join (.bucket 0)).join (.sstable t), 1⟩⟩]⟩

theorem extractBucketsToCompact_of_four_tables :
    ∃ b ∈ fourTables.buckets, minTreshold ≤ b.sstables.length ∧ b.sstables.length < maxTreshold ∧
      ∃ e, fourTables.extractBucketsToCompact = .error e :=
  have hb : fourTables.buckets.head (by simp [fourTables]) ∈ fourTables.buckets := List.head_mem _
  have hmin : minTreshold ≤ (fourTables.buckets.head (by simp [fourTables])).sstables.length := by
    simp [fourTables, minTreshold]
  have hmax : (fourTables.buckets.head (by simp [fourTables])).sstables.length < maxTreshold := by
    simp [fourTables, maxTreshold]
  ⟨_, hb, hmin, hmax, extractBucketsToCompact_of_short fourTables hb hmin hmax⟩

theorem extractBucketsToCompact_eq_ok_iff (m : BucketMap) (c : List Bucket)
    (d : List (Uuid × List SSTablePath)) :
    m.extractBucketsToCompact = .ok (c, d) ↔
      (∀ b ∈ m.buckets, minTreshold ≤ b.sstables.length → maxTreshold ≤ b.sstables.length) ∧
      c = (m.buckets.filter fun b => minTreshold ≤ b.sstables.length).map
        (fun b => { b with sstables := b.sstables.take maxTreshold }) ∧
      d = (m.buckets.filter fun b => maxTreshold < b.sstables.length).map
        fun b => (b.id, b.sstables.take maxTreshold) := by
  rw [extractBucketsToCompact, extractFrom_eq_ok_iff, filter_max_of_filter_min]
  simp only [List.mem_filter, decide_eq_true_eq, and_imp]

/-- One bucket `db/bucket0` holding 32 tables, stamped 0 to 31. -/
def thirtyTwoTables : BucketMap :=
  ⟨Path.root.join (.named "db"), [⟨0, (Path.root.join (.named "db")).join (.bucket 0), 18,
    (List.range 32).map fun t => ⟨((Path.root.join (.named "db")).join (.bucket 0)).join (.sstable t), 1⟩⟩]⟩

theorem extractBucketsToCompact_lists_no_deletion_at_max :
    thirtyTwoTables.extractBucketsToCompact = .ok (thirtyTwoTables.buckets, []) := by
  have hlen : ((List.range 32).map fun t : Nat =>
      (⟨((Path.root.join (.named "db")).join (.bucket 0)).join (.sstable t), 1⟩ : SSTablePath)).length =
      32 := by simp
  refine (extractBucketsToCompact_eq_ok_iff _ _ _).mpr ⟨?_, ?_, ?_⟩ <;>
    simp [thirtyTwoTables, hlen, minTreshold, maxTreshold]

theorem compactionRound (m : BucketMap) (w : World) (hid : (m.buckets.map Bucket.id).Nodup)
    (hshort : ∀ b ∈ m.buckets, minTreshold ≤ b.sstables.length → maxTreshold ≤ b.sstables.length) :
    ∃ bucketsToCompact fs', m.extractBucketsToCompact = .ok (bucketsToCompact,
        (m.buckets.filter fun b => maxTreshold < b.sstables.length).map
          fun b => (b.id, b.sstables.take maxTreshold)) ∧
      m.deleteSstables ((m.buckets.filter fun b => maxTreshold < b.sstables.length).map
          fun b => (b.id, b.sstables.take maxTreshold)) w =
        .ok { m with buckets := m.buckets.map fun b => if maxTreshold < b.sstables.length
          then { b with sstables := b.sstables.take maxTreshold } else b } ⟨fs', w.faults⟩ ∧
      ∀ q, fs'.files q = if q ∈ ((m.buckets.filter fun b => maxTreshold < b.sstables.length).map
          fun b => b.sstables.take maxTreshold).flatten.map SSTablePath.filePath then none
        else w.fs.files q := by
  have hext := extractFrom_ok (m.buckets.filter fun b => minTreshold ≤ b.sstables.length)
    fun b hb => by
      obtain ⟨hb, hmin⟩ := List.mem_filter.mp hb
      exact hshort b hb (by simpa using hmin)
  rw [filter_max_of_filter_min] at hext
  rcases deleteSstables_cases m ((m.buckets.filter fun b => maxTreshold < b.sstables.length).map
      fun b => (b.id, b.sstables.take maxTreshold)) w hid with ⟨-, fs', hdel, -, hf⟩ | ⟨hpre, -⟩
  · have hsnd : ((m.buckets.filter fun b => maxTreshold < b.sstables.length).map
        fun b => (b.id, b.sstables.take maxTreshold)).map Prod.snd =
        (m.buckets.filter fun b => maxTreshold < b.sstables.length).map
          fun b => b.sstables.take maxTreshold := by
      rw [List.map_map]; rfl
    rw [hsnd] at hf
    refine ⟨_, fs', hext, ?_, hf⟩
    rw [hdel]
    congr 2
    refine List.map_congr_left fun b hb => ?_
    have hmem : b.id ∈ ((m.buckets.filter fun b => maxTreshold < b.sstables.length).map
        fun b => (b.id, b.sstables.take maxTreshold)).map Prod.fst ↔
        maxTreshold < b.sstables.length := by
      simp only [List.map_map, Function.comp_def, List.mem_map, List.mem_filter, decide_eq_true_eq]
      exact ⟨fun ⟨x, ⟨hx, hlt⟩, hxb⟩ => List.inj_on_of_nodup_map hid hx hb hxb ▸ hlt,
        fun hlt => ⟨b, ⟨hb, hlt⟩, rfl⟩⟩
    simp only [keepPrefixOf, hmem]
  · refine absurd (fun d hd => ?_) hpre
    obtain ⟨b, hb, rfl⟩ := List.mem_map.mp hd
    obtain ⟨hb, hlt⟩ := List.mem_filter.mp hb
    exact ⟨b, hb, rfl, by simp only [decide_eq_true_eq] at hlt; omega⟩

end BucketMap
/-- One bucket `db/bucket0` holding 33 tables, stamped 0 to 32. -/
def thirtyThreeTables : BucketMap :=
  ⟨Path.root.join (.named "db"), [⟨0, (Path.root.join (.named "db")).join (.bucket 0), 18,
    (List.range 33).map fun t => ⟨((Path.root.join (.named "db")).join (.bucket 0)).join (.sstable t), 1⟩⟩]⟩

/-- A compaction round on a bucket of 33 tables, over any disk: the bucket is left holding the
32 tables the round compacted, whose data files it has just removed, and no longer holds the
33rd, whose file is still there. -/
theorem compactionRound_keeps_compacted_tables (w : World) :
    ∃ bucketsToCompact D m' w', thirtyThreeTables.extractBucketsToCompact = .ok (bucketsToCompact, D) ∧
      thirtyThreeTables.deleteSstables D w = .ok m' w' ∧
      m'.buckets.map (fun b => b.sstables.map SSTablePath.filePath) =
        [(List.range 32).map fun t => ((Path.root.join (.named "db")).join (.bucket 0)).join (.sstable t)] ∧
      (∀ t < 32, w'.fs.files (((Path.root.join (.named "db")).join (.bucket 0)).join (.sstable t)) = none) ∧
      w'.fs.files (((Path.root.join (.named "db")).join (.bucket 0)).join (.sstable 32)) =
        w.fs.files (((Path.root.join (.named "db")).join (.bucket 0)).join (.sstable 32)) := by
  have hlen : ((List.range 33).map fun t : Nat =>
      (⟨((Path.root.join (.named "db")).join (.bucket 0)).join (.sstable t), 1⟩ : SSTablePath)).length = 33 := by
    simp
  obtain ⟨toCompact, fs', hext, hdel, hf⟩ := BucketMap.compactionRound thirtyThreeTables w
    (by simp [thirtyThreeTables]) (by simp [thirtyThreeTables, hlen, maxTreshold])
  refine ⟨toCompact, _, _, _, hext, hdel, ?_, fun t ht => ?_, ?_⟩
  · simp [thirtyThreeTables, hlen, maxTreshold, ← List.map_take, List.take_range, Function.comp_def]
  · rw [hf]
    simp [thirtyThreeTables, hlen, maxTreshold, ← List.map_take, List.take_range, ht]
  · rw [hf]
    simp [thirtyThreeTables, hlen, maxTreshold, ← List.map_take, List.take_range]

end Velarix
