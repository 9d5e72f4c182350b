import Mathlib.Algebra.BigOperators.Group.List
import Velarix.Bucket.Runs

/-! What `avarage_size` tracks over runs of flushes, where the band test is made, and the stale
average a compaction round leaves. -/
namespace Velarix
open Io SSTable Relation

/-- The floor of the mean length of the members' data files. -/
def Bucket.meanFileLen (fs : Fs) (b : Bucket) : Nat :=
  (b.sstables.map fun s => fileLen fs s.filePath).sum / b.sstables.length

theorem mem_insertBucket {bs : List Bucket} {b x : Bucket} (hx : x ∈ insertBucket bs b) :
    x ∈ bs ∨ x = b := by
  unfold insertBucket at hx
  split at hx
  · obtain ⟨y, hy, rfl⟩ := List.mem_map.mp hx
    split
    · exact .inr rfl
    · exact .inl hy
  · simpa using hx

/-- What flushes keep beyond `Separated`: every held file is there, and every bucket holds a
table and has the floor of its members' mean file length as its average. -/
structure Settled (s : MapState) : Prop where
  files : ∀ q ∈ s.map.paths, (s.world.fs.files q).isSome
  averages : ∀ b ∈ s.map.buckets, b.sstables ≠ [] ∧ b.avarageSize = b.meanFileLen s.world.fs

namespace Settled
variable {s : MapState}

theorem init (dir : Path) (w : World) (clock : Nat) : Settled (MapState.init dir w clock) where
  files := by simp [MapState.init, BucketMap.new, BucketMap.paths]
  averages := by simp [MapState.init, BucketMap.new]

theorem reorder (h : Settled s) {buckets : List Bucket} (hp : buckets.Perm s.map.buckets) :
    Settled (s.reorder buckets) where
  files := fun q hq => h.files q ((hp.map Bucket.paths).flatten.subset hq)
  averages := fun b hb => h.averages b (hp.subset hb)

theorem meanFileLen_of_held {fs fs' : Fs} {b : Bucket} {m : BucketMap} (hb : b ∈ m.buckets)
    (hheld : ∀ q ∈ m.paths, fs'.files q = fs.files q) : b.meanFileLen fs' = b.meanFileLen fs := by
  unfold Bucket.meanFileLen fileLen
  congr 2
  refine List.map_congr_left fun x hx => ?_
  rw [hheld x.filePath (List.mem_flatten.mpr ⟨b.paths, List.mem_map_of_mem _ hb,
    List.mem_map_of_mem _ hx⟩)]

theorem insert (hs : Separated s) (h : Settled s) (mt : Memtable) (hotness : Nat) (u : Uuid)
    {now : Nat} (hnow : s.clock < now) : Settled (s.insert mt hotness u now) := by
  obtain ⟨-, -, -, hheld, -, hcases⟩ := hs.insert_cases mt hotness u hnow rfl
  have hold : ∀ b ∈ s.map.buckets, b.sstables ≠ [] ∧
      b.avarageSize = b.meanFileLen (s.insert mt hotness u now).world.fs :=
    fun b hb => by rw [meanFileLen_of_held hb hheld]; exact h.averages b hb
  have hfiles : ∀ q ∈ s.map.paths, ((s.insert mt hotness u now).world.fs.files q).isSome :=
    fun q hq => by rw [hheld q hq]; exact h.files q hq
  rcases hcases with ⟨-, hm, -⟩ | ⟨p, -, hpaths, -, -, hfile, -, ⟨-, heq⟩ | ⟨-, q, hq, hgone⟩⟩
  · exact ⟨fun q hq => hfiles q (hm ▸ hq), fun b hb => hold b (hm ▸ hb)⟩
  swap
  · simpa [hgone] using h.files q hq
  refine ⟨fun q hq => ?_, fun x hx => ?_⟩
  · rcases List.mem_append.mp (hpaths.subset hq) with hq | hq
    · exact hfiles q hq
    · rw [List.mem_singleton.mp hq, hfile]
      rfl
  rcases (BucketMap.insertToAppropriateBucket_ok heq).2.2.2 with
    ⟨pre, b, post, hbs, -, -, rfl, hm'⟩ | ⟨-, -, -, rfl, hm'⟩
  · rw [hm'] at hx
    rcases List.mem_append.mp hx with hx | hx
    · exact hold x (by simp [hbs, hx])
    rcases List.mem_cons.mp hx with rfl | hx
    · simp [Bucket.meanFileLen, List.map_map, Function.comp_def]
    · exact hold x (by simp [hbs, hx])
  · rcases mem_insertBucket (hm' ▸ hx) with hx | rfl
    · exact hold x hx
    · simp [Bucket.meanFileLen]

theorem of_reachable {s₀ s : MapState} (hs₀ : Separated s₀) (h₀ : Settled s₀)
    (hrun : ReflTransGen (Grow (· < ·)) s₀ s) : Separated s ∧ Settled s := by
  induction hrun with
  | refl => exact ⟨hs₀, h₀⟩
  | tail _ hstep ih =>
    obtain ⟨hs, h⟩ := ih
    cases hstep with
    | insert mt hotness u now hnow => exact ⟨hs.insert mt hotness u hnow, h.insert hs mt hotness u hnow⟩
    | reorder buckets hp => exact ⟨hs.reorder hp, h.reorder hp⟩

end Settled

/-- Over every run of flushes from an empty map, with strictly increasing clock readings and
every write succeeding, every bucket holds a table and its average is the floor of the mean
length of its members' data files. -/
theorem averages_exact_over_flushes (dir : Path) {w : World} {clock : Nat} (hf : w.faults = [])
    (hfresh : ∀ q t, q.stamp = some t → clock < t → w.fs.files q = none) {s : MapState}
    (hrun : ReflTransGen (Grow (· < ·)) (MapState.init dir w clock) s) :
    ∀ b ∈ s.map.buckets, b.sstables ≠ [] ∧
      b.avarageSize = (b.sstables.map fun p => fileLen s.world.fs p.filePath).sum / b.sstables.length :=
  ((Settled.of_reachable (Separated.init dir hf hfresh) (Settled.init dir w clock) hrun).2).averages

theorem averages_exact_over_four_flushes :
    ReflTransGen (Grow (· < ·)) (MapState.init db ⟨Fs.empty, []⟩ 0) fourFlushes ∧
      fourFlushes.map.buckets.map (fun b => (b.avarageSize, b.sstables.length)) = [(21, 3), (50, 1)] ∧
      ∀ b ∈ fourFlushes.map.buckets, b.sstables ≠ [] ∧ b.avarageSize = (b.sstables.map fun p =>
        fileLen fourFlushes.world.fs p.filePath).sum / b.sstables.length :=
  ⟨fourFlushes_reachable, rfl,
    averages_exact_over_flushes db rfl (fun _ _ _ _ => rfl) fourFlushes_reachable⟩

theorem mem_insertBucket_self (bs : List Bucket) (b : Bucket) : b ∈ insertBucket bs b := by
  unfold insertBucket
  split
  · next hany =>
    obtain ⟨x, hx, hxb⟩ := List.any_eq_true.mp hany
    exact List.mem_map.mpr ⟨x, hx, by simp only [decide_eq_true_eq] at hxb; simp [hxb]⟩
  · exact List.mem_append_right _ (List.mem_singleton_self _)

/-- A successful flush, every write succeeding, tests the band once, against the memtable's
reported size: its table joins the first bucket, in iteration order, whose average before the
flush passes `fitsBucket`, the buckets before it failing; or, none passing, it founds a bucket of
its own, whose average is its file's length. No member placed earlier is tested. -/
theorem flush_tests_band_once {m : BucketMap} {mt : Memtable} {hotness u now : Nat} {fs : Fs}
    {p : SSTablePath} {m' : BucketMap} {w' : World}
    (h : m.insertToAppropriateBucket mt hotness u now ⟨fs, []⟩ = .ok (p, m') w') :
    (∃ pre b post b', m.buckets = pre ++ b :: post ∧ m'.buckets = pre ++ b' :: post ∧
        (∀ x ∈ pre, fitsBucket x.avarageSize mt.size = false) ∧
        fitsBucket b.avarageSize mt.size = true ∧ b'.id = b.id ∧ b'.paths = b.paths ++ [p.filePath]) ∨
      ((∀ x ∈ m.buckets, fitsBucket x.avarageSize mt.size = false) ∧
        ∃ b' ∈ m'.buckets, b'.paths = [p.filePath] ∧ b'.avarageSize = fileLen w'.fs p.filePath) := by
  obtain ⟨-, -, -, hcases⟩ := BucketMap.insertToAppropriateBucket_ok h
  rcases hcases with ⟨pre, b, post, hbs, hpre, hb, rfl, hm'⟩ | ⟨hnone, -, -, rfl, hm'⟩
  · exact .inl ⟨pre, b, post, _, hbs, hm', hpre, hb, rfl,
      by simp [Bucket.paths, List.map_map, Function.comp_def]⟩
  · refine .inr ⟨hnone, ⟨u, m.dir.join (.bucket u), _, [_]⟩, ?_, rfl, rfl⟩
    rw [hm']
    exact mem_insertBucket_self _ _

/-- The first flush founds a bucket; the second, of the same size, joins it. -/
theorem flush_tests_band_once_found_then_join :
    (∃ p m' w', (BucketMap.new db).insertToAppropriateBucket oneEntry 1 0 1 ⟨Fs.empty, []⟩ =
        .ok (p, m') w' ∧
      ((∃ pre b post b', (BucketMap.new db).buckets = pre ++ b :: post ∧
          m'.buckets = pre ++ b' :: post ∧
          (∀ x ∈ pre, fitsBucket x.avarageSize oneEntry.size = false) ∧
          fitsBucket b.avarageSize oneEntry.size = true ∧ b'.id = b.id ∧
          b'.paths = b.paths ++ [p.filePath]) ∨
        ((∀ x ∈ (BucketMap.new db).buckets, fitsBucket x.avarageSize oneEntry.size = false) ∧
          ∃ b' ∈ m'.buckets, b'.paths = [p.filePath] ∧ b'.avarageSize = fileLen w'.fs p.filePath))) ∧
    ∃ p m' w', ((MapState.init db ⟨Fs.empty, []⟩ 0).insert oneEntry 1 0 1).map.insertToAppropriateBucket
        oneEntry 1 1 2 ⟨((MapState.init db ⟨Fs.empty, []⟩ 0).insert oneEntry 1 0 1).world.fs, []⟩ =
        .ok (p, m') w' ∧ m'.buckets.map (fun b => b.sstables.length) = [2] ∧
      ((∃ pre b post b', ((MapState.init db ⟨Fs.empty, []⟩ 0).insert oneEntry 1 0 1).map.buckets =
            pre ++ b :: post ∧ m'.buckets = pre ++ b' :: post ∧
          (∀ x ∈ pre, fitsBucket x.avarageSize oneEntry.size = false) ∧
          fitsBucket b.avarageSize oneEntry.size = true ∧ b'.id = b.id ∧
          b'.paths = b.paths ++ [p.filePath]) ∨
        ((∀ x ∈ ((MapState.init db ⟨Fs.empty, []⟩ 0).insert oneEntry 1 0 1).map.buckets,
            fitsBucket x.avarageSize oneEntry.size = false) ∧
          ∃ b' ∈ m'.buckets, b'.paths = [p.filePath] ∧ b'.avarageSize = fileLen w'.fs p.filePath)) :=
  ⟨⟨_, _, _, rfl, @flush_tests_band_once (BucketMap.new db) oneEntry 1 0 1 Fs.empty _ _ _ rfl⟩,
    _, _, _, rfl, rfl, @flush_tests_band_once _ oneEntry 1 1 2
      ((MapState.init db ⟨Fs.empty, []⟩ 0).insert oneEntry 1 0 1).world.fs _ _ _ rfl⟩

/-- The band the spec states for every member, cleared of fractions: `0.5 * avg < size < 1.5 * avg`,
or both below `MIN_SSTABLE_SIZE`. -/
def InBand (avarageSize size : Nat) : Prop :=
  avarageSize < 2 * size ∧ 2 * size < 3 * avarageSize ∨
    size < minSstableSize ∧ avarageSize < minSstableSize

instance (avarageSize size : Nat) : Decidable (InBand avarageSize size) :=
  inferInstanceAs (Decidable (_ ∨ _))

theorem fitsBucket_iff {avarageSize : Nat} (h : 3 * avarageSize < 2 ^ 53) (size : Nat) :
    fitsBucket avarageSize size = true ↔ InBand avarageSize size ∧
      (2 * size + 1 = 3 * avarageSize → size < minSstableSize ∧ avarageSize < minSstableSize) := by
  simp only [fitsBucket_of_lt h, InBand, minSstableSize, Bool.or_eq_true, Bool.and_eq_true,
    decide_eq_true_eq]
  omega

/-- Flushes of 100, 51 and 38 bytes at clock readings 1, 2 and 3. -/
def shrinkingFlushes : MapState :=
  (((MapState.init db ⟨Fs.empty, []⟩ 0).insert (keyOfLength 83) 1 0 1).insert (keyOfLength 34) 1 1 2).insert
    (keyOfLength 21) 1 2 3

/-- Three flushes of shrinking tables each pass the test against the average they find (100, then
75) and share one bucket; its average falls to 63, and the first table, 100 bytes long, is no
longer within `1.5 * 63`. -/
theorem band_drifts_after_shrinking_flushes :
    ReflTransGen (Grow (· < ·)) (MapState.init db ⟨Fs.empty, []⟩ 0) shrinkingFlushes ∧
      shrinkingFlushes.map.buckets.map (fun b => (b.avarageSize,
        b.sstables.map fun s => fileLen shrinkingFlushes.world.fs s.filePath)) = [(63, [100, 51, 38])] ∧
      ¬ InBand 63 100 :=
  ⟨.tail (.tail (.single (.insert _ _ 1 0 1 (by decide))) (.insert _ _ 1 1 2 (by simp)))
    (.insert _ _ 1 2 3 (by simp)), rfl, by decide⟩

/-- A table of 33 bytes founds a bucket at clock reading 1; one of 49 bytes follows at 2. -/
def bandEdgeFlushes : MapState :=
  ((MapState.init db ⟨Fs.empty, []⟩ 0).insert (keyOfLength 16) 1 0 1).insert (keyOfLength 32) 1 1 2

theorem flush_founds_bucket_inside_band :
    ReflTransGen (Grow (· < ·)) (MapState.init db ⟨Fs.empty, []⟩ 0) bandEdgeFlushes ∧
      InBand 33 (keyOfLength 32).size ∧
      bandEdgeFlushes.map.buckets.map (fun b => (b.avarageSize, b.sstables.length)) = [(33, 1), (49, 1)] :=
  ⟨.tail (.single (.insert _ _ 1 0 1 (by decide))) (.insert _ _ 1 1 2 (by decide)), by decide, rfl⟩

theorem meanFileLen_of_const {fs : Fs} {b : Bucket} {L : Nat} (hne : b.sstables ≠ [])
    (h : ∀ p ∈ b.sstables, fileLen fs p.filePath = L) : b.meanFileLen fs = L := by
  unfold Bucket.meanFileLen
  rw [List.map_congr_left h, List.map_const', List.sum_const_nat,
    Nat.mul_div_cancel_left _ (List.length_pos.mpr hne)]

/-- `n + 1` flushes of `oneEntry` at clock readings 1 to `n + 1` into an empty map under `db`. -/
def flushRun : Nat → MapState
  | 0 => (MapState.init db ⟨Fs.empty, []⟩ 0).insert oneEntry 1 0 1
  | n + 1 => (flushRun n).insert oneEntry 1 0 (n + 2)

theorem flushRun_reachable : ∀ n,
    ReflTransGen (Grow (· < ·)) (MapState.init db ⟨Fs.empty, []⟩ 0) (flushRun n)
  | 0 => .single (.insert _ oneEntry 1 0 1 (by decide))
  | n + 1 => (flushRun_reachable n).tail (.insert _ oneEntry 1 0 (n + 2) (by
      cases n <;> simp [flushRun]))

theorem flushRun_bucket : ∀ n, ∃ b, (flushRun n).map.buckets = [b] ∧
    b.sstables.length = n + 1 ∧ ∀ p ∈ b.sstables, fileLen (flushRun n).world.fs p.filePath = 18
  | 0 => ⟨_, rfl, rfl, by decide⟩
  | n + 1 => by
    obtain ⟨b, hbs, hlen, hfl⟩ := flushRun_bucket n
    obtain ⟨hs, h⟩ := Settled.of_reachable (Separated.init db rfl fun _ _ _ _ => rfl)
      (Settled.init db _ 0) (flushRun_reachable n)
    have hclock : (flushRun n).clock = n + 1 := by cases n <;> simp [flushRun]
    have hne : b.sstables ≠ [] := (h.averages b (by simp [hbs])).1
    have havg : b.avarageSize = 18 :=
      (h.averages b (by simp [hbs])).2.trans (meanFileLen_of_const hne hfl)
    have hfits : fitsBucket b.avarageSize oneEntry.size = true := by rw [havg]; decide
    rw [show flushRun (n + 1) = (flushRun n).insert oneEntry 1 0 (n + 2) from rfl]
    obtain ⟨-, -, -, hheld, -, ⟨hnone, -⟩ | ⟨p, -, -, -, -, hfile, -, ⟨-, heq⟩ | ⟨-, q, hq, hgone⟩⟩⟩ :=
      hs.insert_cases oneEntry 1 0 (show (flushRun n).clock < n + 2 by omega) rfl
    · obtain ⟨p, m', w', heq⟩ := @BucketMap.insertToAppropriateBucket_succeeds (flushRun n).map
        oneEntry 1 0 (n + 2) (flushRun n).world.fs (by decide) (fun x hx q hq => h.files q.filePath
          (List.mem_flatten.mpr ⟨x.paths, List.mem_map_of_mem _ hx, List.mem_map_of_mem _ hq⟩))
        (fun hnone => absurd (hnone b (by simp [hbs])) (by simp [hfits]))
      have hw0 : (flushRun n).world = ⟨(flushRun n).world.fs, []⟩ := by rw [← hs.faults]
      rw [MapState.insertedPath, hw0, heq] at hnone
      cases hnone
    swap
    · simpa [hgone] using h.files q hq
    rcases (BucketMap.insertToAppropriateBucket_ok heq).2.2.2 with
      ⟨pre, b₀, post, hbs₀, -, -, rfl, hm'⟩ | ⟨hnone, -⟩
    · obtain ⟨rfl, rfl, rfl⟩ : pre = [] ∧ b = b₀ ∧ post = [] := by
        rw [hbs] at hbs₀
        rcases pre with _ | ⟨x, pre⟩
        · simp only [List.nil_append, List.cons.injEq] at hbs₀
          exact ⟨rfl, hbs₀.1, hbs₀.2.symm⟩
        · simp at hbs₀
      refine ⟨_, hm', by simp [hlen], ?_⟩
      simp only [List.mem_map, List.mem_append, List.mem_singleton, forall_exists_index, and_imp]
      rintro _ q (hq | rfl) rfl
      · rw [SSTablePath.increaseHotness_filePath, fileLen, hheld q.filePath
          (List.mem_flatten.mpr ⟨b.paths, by simp [hbs], List.mem_map_of_mem _ hq⟩), ← fileLen,
          hfl q hq]
      · rw [SSTablePath.increaseHotness_filePath, fileLen, hfile]
        rfl
    · exact absurd (hnone b (by simp [hbs])) (by simp [hfits])

/-- Thirty-three flushes of one-entry memtables at clock readings 1 to 33 fill one bucket, whose
average is 18; the compaction round that follows leaves it holding the 32 tables whose data files
it has just removed, its average still 18, while its members' mean file length is now 0. -/
theorem compactionRound_leaves_stale_average :
    ∃ bucketsToCompact D, (flushRun 32).map.extractBucketsToCompact = .ok (bucketsToCompact, D) ∧
      ReflTransGen (Step (· < ·)) (MapState.init db ⟨Fs.empty, []⟩ 0) ((flushRun 32).delete D) ∧
      ∃ b ∈ ((flushRun 32).delete D).map.buckets, b.sstables.length = 32 ∧ b.avarageSize = 18 ∧
        (∀ p ∈ b.sstables, ((flushRun 32).delete D).world.fs.files p.filePath = none) ∧
        (b.sstables.map fun p => fileLen ((flushRun 32).delete D).world.fs p.filePath).sum /
          b.sstables.length = 0 := by
  obtain ⟨b, hbs, hlen, hfl⟩ := flushRun_bucket 32
  obtain ⟨hs, h⟩ := Settled.of_reachable (Separated.init db rfl fun _ _ _ _ => rfl)
    (Settled.init db _ 0) (flushRun_reachable 32)
  have hne : b.sstables ≠ [] := (h.averages b (by simp [hbs])).1
  have havg : b.avarageSize = 18 :=
    (h.averages b (by simp [hbs])).2.trans (meanFileLen_of_const hne hfl)
  obtain ⟨toCompact, fs', hext, hdel, hf⟩ := BucketMap.compactionRound (flushRun 32).map
    (flushRun 32).world hs.ids (by simp [hbs, hlen, minTreshold, maxTreshold])
  have hlisted : (((flushRun 32).map.buckets.filter fun b => maxTreshold < b.sstables.length).map
      fun b => b.sstables.take maxTreshold).flatten = b.sstables.take maxTreshold := by
    simp [hbs, hlen, maxTreshold]
  have hdrop : ∀ p ∈ b.sstables.take maxTreshold, fs'.files p.filePath = none := fun p hp => by
    rw [hf, hlisted, if_pos (List.mem_map_of_mem _ hp)]
  refine ⟨toCompact, _, hext, ReflTransGen.tail (ReflTransGen.mono (fun _ _ => Step.grow)
    (flushRun_reachable 32)) (Step.delete _ _), ?_⟩
  rw [MapState.delete_of_ok hdel]
  refine ⟨{ b with sstables := b.sstables.take maxTreshold }, by simp [hbs, hlen, maxTreshold],
    by simp [hlen, maxTreshold], havg, hdrop, ?_⟩
  show ((b.sstables.take maxTreshold).map fun p => fileLen fs' p.filePath).sum / _ = 0
  rw [List.map_congr_left fun p hp => by rw [fileLen, hdrop p hp]]
  simp

end Velarix
