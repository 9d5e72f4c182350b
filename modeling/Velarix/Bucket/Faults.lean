import Velarix.Bucket.Failure
import Velarix.Bucket.Averages

/-! Runs of the bucket map whatever writes fail: a successful insert does what it does when no
write fails, and a failed one writes only files named by its own clock reading. -/
namespace Velarix
set_option autoImplicit false
open Io SSTable Relation

/-- What `x` does when it succeeds it does with no write scheduled to fail. -/
def FaultFree {α : Type} (x : Io α) : Prop :=
  ∀ (w : World) (a : α) (w' : World), x w = .ok a w' → x ⟨w.fs, []⟩ = .ok a ⟨w'.fs, []⟩

section FaultFree
variable {α β : Type}

theorem faultFree_pure (a : α) : FaultFree (pure a : Io α) := fun _ _ _ h => by
  cases h
  rfl

theorem faultFree_bind {x : Io α} {f : α → Io β} (hx : FaultFree x) (hf : ∀ a, FaultFree (f a)) :
    FaultFree (x >>= f) := fun _ _ _ h => by
  obtain ⟨a, w₁, h₁, h₂⟩ := bind_eq_ok h
  simp only [bind, EStateM.bind, hx _ _ _ h₁]
  exact hf a _ _ _ h₂

theorem ofExcept_faultFree (e : Except StorageEngineError α) :
    FaultFree (MonadExcept.ofExcept e : Io α) := fun _ _ _ h => by
  cases e <;> cases h
  rfl

end FaultFree

theorem writeAll_faultFree (p : Path) (b : Bytes) : FaultFree (writeAll p b) := fun _ _ _ h => by
  unfold writeAll at h ⊢
  split at h <;> cases h
  rfl

theorem metadataLen_faultFree (p : Path) : FaultFree (metadataLen p) := fun _ _ _ h => by
  unfold metadataLen at h ⊢
  split at h <;> cases h
  next hb => simp only [hb]

theorem metadataLenUnwrap_faultFree (p : Path) : FaultFree (metadataLenUnwrap p) :=
  fun _ _ _ h => by
    unfold metadataLenUnwrap at h ⊢
    split at h <;> cases h
    next hb => simp only [hb]

theorem sumFileLens_faultFree (ss : List SSTablePath) : FaultFree (sumFileLens ss) :=
  fun _ _ _ h => by
    rw [sumFileLens_eq] at h ⊢
    split at h <;> cases h
    next hall => exact if_pos hall

theorem SSTable.new_faultFree (dir : Path) (now : Nat) : FaultFree (SSTable.new dir true now) :=
  fun _ _ _ h => by
    rw [new_ok] at h ⊢
    cases h
    rfl

theorem writeBlock_faultFree (t : SSTable) (b : Block) (si : SparseIndex) :
    FaultFree (t.writeBlock b si) := by
  unfold writeBlock
  refine faultFree_bind (metadataLen_faultFree _) fun _ => ?_
  split
  · exact fun _ _ _ h => by cases h
  · exact faultFree_bind (writeAll_faultFree _ _) fun _ => faultFree_pure _

theorem writeBlocks_faultFree (t : SSTable) : ∀ (bs : List Block) (si : SparseIndex),
    FaultFree (t.writeBlocks bs si)
  | [], _ => faultFree_pure _
  | b :: bs, si => faultFree_bind (writeBlock_faultFree t b si) fun si => writeBlocks_faultFree t bs si

theorem writeToFile_faultFree (t : SSTable) : FaultFree t.writeToFile := by
  unfold writeToFile
  refine faultFree_bind (ofExcept_faultFree _) fun ⟨blocks, current⟩ =>
    faultFree_bind (writeBlocks_faultFree t blocks _) fun si => ?_
  dsimp only
  split
  · exact faultFree_bind (writeBlock_faultFree t current si) fun _ => writeAll_faultFree _ _
  · exact faultFree_bind (faultFree_pure _) fun _ => writeAll_faultFree _ _

theorem writeSSTable_faultFree (d : Path) (mt : Memtable) (now : Nat) :
    FaultFree (writeSSTable d mt now) :=
  faultFree_bind (SSTable.new_faultFree d now) fun _ =>
    faultFree_bind (writeToFile_faultFree _) fun _ => faultFree_pure _

theorem writeIntoBucket_faultFree (b : Bucket) (mt : Memtable) (hotness now : Nat) :
    FaultFree (writeIntoBucket b mt hotness now) :=
  faultFree_bind (writeSSTable_faultFree _ _ _) fun _ =>
    faultFree_bind (sumFileLens_faultFree _) fun _ => faultFree_pure _

theorem placeInBuckets_faultFree (mt : Memtable) (hotness now : Nat) :
    ∀ bs, FaultFree (placeInBuckets mt hotness now bs)
  | [] => faultFree_pure _
  | b :: bs => by
    rw [placeInBuckets]
    split
    · exact faultFree_bind (writeIntoBucket_faultFree _ _ _ _) fun ⟨_, _⟩ => faultFree_pure _
    · exact faultFree_bind (placeInBuckets_faultFree mt hotness now bs) fun
        | none => faultFree_pure _
        | some ⟨_, _⟩ => faultFree_pure _

theorem Bucket.new_faultFree (dir : Path) (bucketId : Uuid) : FaultFree (Bucket.new dir bucketId) :=
  fun _ _ _ h => by
    rw [Bucket.new_eq] at h ⊢
    split at h <;> cases h
    next hd => exact if_neg hd

theorem BucketMap.insertToAppropriateBucket_faultFree (m : BucketMap) (mt : Memtable)
    (hotness bucketId now : Nat) :
    FaultFree (m.insertToAppropriateBucket mt hotness bucketId now) := by
  unfold BucketMap.insertToAppropriateBucket
  refine faultFree_bind (placeInBuckets_faultFree _ _ _ _) fun
    | none => ?_
    | some ⟨_, _⟩ => faultFree_pure _
  exact faultFree_bind (Bucket.new_faultFree _ _) fun _ =>
    faultFree_bind (writeSSTable_faultFree _ _ _) fun _ =>
      faultFree_bind (metadataLenUnwrap_faultFree _) fun _ => faultFree_pure _

/-- Every file but those named by the clock reading `now` is as it was. -/
def Stamps (now : Nat) (w w' : World) : Prop :=
  ∀ q, q.stamp ≠ some now → w'.fs.files q = w.fs.files q

namespace Stamps
variable {now : Nat} {α β : Type}

theorem refl (w : World) : Stamps now w w := fun _ _ => rfl

theorem trans {u v w : World} (h₁ : Stamps now u v) (h₂ : Stamps now v w) : Stamps now u w :=
  fun q hq => (h₂ q hq).trans (h₁ q hq)

theorem keeps_pure (a : α) : Keeps (Stamps now) (pure a : Io α) := Io.keeps_pure refl a

theorem keeps_bind {x : Io α} {f : α → Io β} (hx : Keeps (Stamps now) x)
    (hf : ∀ a, Keeps (Stamps now) (f a)) : Keeps (Stamps now) (x >>= f) :=
  Io.keeps_bind (R := Stamps now) trans hx hf

theorem keeps_readOnly {x : Io α} (h : ∀ w, x.after w = w) : Keeps (Stamps now) x :=
  keeps_of_readOnly refl h

theorem keeps_bind_of {x : Io α} {f : α → Io β} {P : α → Prop} (hx : Keeps (Stamps now) x)
    (hpost : ∀ {w a w'}, x w = .ok a w' → P a) (hf : ∀ a, P a → Keeps (Stamps now) (f a)) :
    Keeps (Stamps now) (x >>= f) := fun w => by
  show Stamps now w (match EStateM.bind x f w with | .ok _ w' => w' | .error _ w' => w')
  simp only [EStateM.bind]
  cases h : x w with
  | ok a w' => exact trans (hx.of_ok h) (hf a (hpost h) w')
  | error e w' => exact hx.of_error h

end Stamps

theorem writeAll_stamps {now : Nat} {p : Path} (hp : p.stamp = some now) (b : Bytes) :
    Keeps (Stamps now) (writeAll p b) := fun w q hq => by
  have hne : q ≠ p := fun h => hq (h ▸ hp)
  unfold after writeAll
  cases tearAt w.faults b.length <;> exact (Fs.append_files _ p q _).trans (if_neg hne)

theorem SSTable.new_stamps (d : Path) (now : Nat) : Keeps (Stamps now) (SSTable.new d true now) :=
  fun w q hq => by
    have h₁ : q ≠ d.join (.sstable now) := fun h => hq (h ▸ rfl)
    have h₂ : q ≠ d.join (.index now) := fun h => hq (h ▸ rfl)
    simp only [after, new_ok, Fs.touch_files, if_neg h₁, if_neg h₂]
    split <;> rfl

theorem writeBlock_stamps {now : Nat} (t : SSTable) (ht : t.dataFilePath.stamp = some now)
    (b : Block) (si : SparseIndex) : Keeps (Stamps now) (t.writeBlock b si) := by
  unfold writeBlock
  refine Stamps.keeps_bind (Stamps.keeps_readOnly (metadataLen_after _)) fun _ => ?_
  split
  · exact Stamps.keeps_readOnly fun _ => rfl
  · exact Stamps.keeps_bind (writeAll_stamps ht _) fun _ => Stamps.keeps_pure _

theorem writeBlocks_stamps {now : Nat} (t : SSTable) (ht : t.dataFilePath.stamp = some now) :
    ∀ (bs : List Block) (si : SparseIndex), Keeps (Stamps now) (t.writeBlocks bs si)
  | [], _ => Stamps.keeps_pure _
  | b :: bs, si =>
    Stamps.keeps_bind (writeBlock_stamps t ht b si) fun si => writeBlocks_stamps t ht bs si

theorem writeBlock_filePath {t : SSTable} {b : Block} {si si' : SparseIndex} {w w' : World}
    (h : t.writeBlock b si w = .ok si' w') : si'.filePath = si.filePath := by
  obtain ⟨n, w₁, -, h⟩ := bind_eq_ok h
  cases hb : b.getFirstEntry with
  | none => simp only [hb] at h; cases h
  | some first =>
    simp only [hb] at h
    obtain ⟨u, w₂, -, h⟩ := bind_eq_ok h
    exact (pure_eq_ok h).1 ▸ rfl

theorem writeBlocks_filePath {t : SSTable} : ∀ {bs : List Block} {si si' : SparseIndex}
    {w w' : World}, t.writeBlocks bs si w = .ok si' w' → si'.filePath = si.filePath
  | [], _, _, _, _, h => (pure_eq_ok h).1 ▸ rfl
  | _ :: _, _, _, _, _, h => by
    obtain ⟨si₁, w₁, h₁, h⟩ := bind_eq_ok h
    exact (writeBlocks_filePath h).trans (writeBlock_filePath h₁)

theorem writeToFile_stamps {now : Nat} (t : SSTable) (hd : t.dataFilePath.stamp = some now)
    (hi : t.indexFilePath.stamp = some now) : Keeps (Stamps now) t.writeToFile := by
  unfold writeToFile
  refine Stamps.keeps_bind (Stamps.keeps_readOnly fun w => ?_) fun ⟨blocks, current⟩ =>
    Stamps.keeps_bind_of (writeBlocks_stamps t hd blocks _) writeBlocks_filePath fun si hsi => ?_
  · unfold after MonadExcept.ofExcept
    rcases fillBlocks t.entries.toList [] Block.new with _ | _ <;> rfl
  · dsimp only
    split
    · exact Stamps.keeps_bind_of (writeBlock_stamps t hd current si) writeBlock_filePath
        fun si' hsi' => writeAll_stamps (by rw [hsi', hsi]; exact hi) _
    · exact Stamps.keeps_bind_of (Stamps.keeps_pure si) (fun h => (pure_eq_ok h).1)
        fun si' hsi' => writeAll_stamps (by rw [← hsi', hsi]; exact hi) _

theorem writeSSTable_stamps (d : Path) (mt : Memtable) (now : Nat) :
    Keeps (Stamps now) (writeSSTable d mt now) :=
  Stamps.keeps_bind_of (SSTable.new_stamps d now)
    (P := fun t : SSTable => t.dataFilePath.stamp = some now ∧ t.indexFilePath.stamp = some now)
    (fun h => by rw [new_ok] at h; cases h; exact ⟨rfl, rfl⟩) fun _ ht =>
    Stamps.keeps_bind (writeToFile_stamps _ ht.1 ht.2) fun _ => Stamps.keeps_pure _

theorem writeIntoBucket_stamps (b : Bucket) (mt : Memtable) (hotness now : Nat) :
    Keeps (Stamps now) (writeIntoBucket b mt hotness now) :=
  Stamps.keeps_bind (writeSSTable_stamps _ _ _) fun _ =>
    Stamps.keeps_bind (Stamps.keeps_readOnly (sumFileLens_after _)) fun _ => Stamps.keeps_pure _

theorem placeInBuckets_stamps (mt : Memtable) (hotness now : Nat) :
    ∀ bs, Keeps (Stamps now) (placeInBuckets mt hotness now bs)
  | [] => Stamps.keeps_pure _
  | b :: bs => by
    rw [placeInBuckets]
    split
    · exact Stamps.keeps_bind (writeIntoBucket_stamps _ _ _ _) fun ⟨_, _⟩ => Stamps.keeps_pure _
    · exact Stamps.keeps_bind (placeInBuckets_stamps mt hotness now bs) fun
        | none => Stamps.keeps_pure _
        | some ⟨_, _⟩ => Stamps.keeps_pure _

theorem Bucket.new_stamps (dir : Path) (bucketId : Uuid) (now : Nat) :
    Keeps (Stamps now) (Bucket.new dir bucketId) := fun w q _ => by
  by_cases hd : (w.fs.dirs (dir.join (.bucket bucketId)) ||
      (w.fs.files (dir.join (.bucket bucketId))).isSome) = true <;>
    simp only [after, Bucket.new_eq, hd, if_true, if_false, Bool.false_eq_true, Fs.addDir_files]

theorem BucketMap.insertToAppropriateBucket_stamps (m : BucketMap) (mt : Memtable)
    (hotness bucketId now : Nat) :
    Keeps (Stamps now) (m.insertToAppropriateBucket mt hotness bucketId now) := by
  unfold BucketMap.insertToAppropriateBucket
  refine Stamps.keeps_bind (placeInBuckets_stamps _ _ _ _) fun
    | none => ?_
    | some ⟨_, _⟩ => Stamps.keeps_pure _
  exact Stamps.keeps_bind (Bucket.new_stamps _ _ _) fun _ =>
    Stamps.keeps_bind (writeSSTable_stamps _ _ _) fun _ =>
      Stamps.keeps_bind (Stamps.keeps_readOnly (metadataLenUnwrap_after _)) fun _ =>
        Stamps.keeps_pure _

theorem BucketMap.insertToAppropriateBucket_faultFree_of_pushed {m : BucketMap} {mt : Memtable}
    {hotness u now : Nat} {w w' : World} {e : StorageEngineError} {p : SSTablePath}
    {bs : List Bucket} (h : m.insertToAppropriateBucket mt hotness u now w = .error e w')
    (hpush : pushedInPlace mt hotness now w m.buckets = some (p, bs)) :
    pushedInPlace mt hotness now ⟨w.fs, []⟩ m.buckets = some (p, bs) ∧
      m.insertToAppropriateBucket mt hotness u now ⟨w.fs, []⟩ = .error e ⟨w'.fs, []⟩ := by
  obtain ⟨pre, b, post, t, w₁, -, -, -, -, -, ht, hall⟩ :=
    BucketMap.insertToAppropriateBucket_of_pushedInPlace u hpush
  obtain ⟨hpush', heq'⟩ := hall _ _ (writeSSTable_faultFree _ _ _ _ _ _ ht)
  have heq := (hall _ _ ht).2
  rw [h] at heq
  by_cases hc : (b.push p).sstables.all fun s => (w₁.fs.files s.filePath).isSome
  · rw [if_pos hc] at heq
    cases heq
  · rw [if_neg hc] at heq
    cases heq
    exact ⟨hpush', heq'.trans (if_neg hc)⟩

namespace MapState

/-- The state with no write scheduled to fail: the map, the disk and the history as they are. -/
def clearFaults (s : MapState) : MapState := { s with world := ⟨s.world.fs, []⟩ }

/-- The insert fails before the loop pushed its table into a bucket in place. -/
def FailsBeforePush (s : MapState) (mt : Memtable) (hotness : Nat) (u : Uuid) (now : Nat) : Prop :=
  s.insertedPath mt hotness u now = none ∧ pushedInPlace mt hotness now s.world s.map.buckets = none

theorem clearFaults_insert {s : MapState} {mt : Memtable} {hotness u now : Nat}
    (h : ¬ s.FailsBeforePush mt hotness u now) :
    s.clearFaults.insert mt hotness u now = (s.insert mt hotness u now).clearFaults ∧
      s.clearFaults.insertedPath mt hotness u now = s.insertedPath mt hotness u now := by
  rcases s.insert_eq mt hotness u now with ⟨p, m, w, heq, -⟩ | ⟨e, w, p, bs, heq, hpush, -⟩ |
    ⟨e, w, heq, hpush, -⟩
  · simp only [insert, insertedPath, clearFaults, heq,
      s.map.insertToAppropriateBucket_faultFree mt hotness u now _ _ _ heq]
    exact ⟨rfl, trivial⟩
  · obtain ⟨hpush', heq'⟩ := s.map.insertToAppropriateBucket_faultFree_of_pushed heq hpush
    simp only [insert, insertedPath, clearFaults, heq, heq', hpush, hpush']
    exact ⟨rfl, trivial⟩
  · exact absurd ⟨by simp [insertedPath, heq], hpush⟩ h

theorem insert_of_failsBeforePush {s : MapState} {mt : Memtable} {hotness u now : Nat}
    (h : s.FailsBeforePush mt hotness u now) :
    ∃ e w', s.map.insertToAppropriateBucket mt hotness u now s.world = .error e w' ∧
      s.insert mt hotness u now = { s with world := w', clock := now } := by
  rcases s.insert_eq mt hotness u now with ⟨p, m, w, heq, -⟩ | ⟨e, w, p, bs, -, hp, -⟩ |
    ⟨e, w, heq, -, hins⟩
  · simp [insertedPath, heq, FailsBeforePush] at h
  · rw [h.2] at hp
    cases hp
  · exact ⟨e, w, heq, hins⟩

theorem failsBeforePush_of_error {s : MapState} {mt : Memtable} {hotness u now : Nat}
    {e : StorageEngineError} {w' : World}
    (herr : s.map.insertToAppropriateBucket mt hotness u now s.world = .error e w')
    (hpanic : ∀ msg, e ≠ .panic msg) : s.FailsBeforePush mt hotness u now := by
  refine ⟨by simp [insertedPath, herr], ?_⟩
  cases hpush : pushedInPlace mt hotness now s.world s.map.buckets with
  | none => rfl
  | some r =>
    obtain ⟨pre, b, post, t, w₁, -, -, -, -, -, ht, hall⟩ :=
      BucketMap.insertToAppropriateBucket_of_pushedInPlace u hpush
    rw [(hall _ _ ht).2] at herr
    split_ifs at herr
    cases herr
    exact absurd rfl (hpanic _)

theorem insert_stamps (s : MapState) (mt : Memtable) (hotness : Nat) (u : Uuid) (now : Nat) :
    Stamps now s.world (s.insert mt hotness u now).world := by
  have hst := s.map.insertToAppropriateBucket_stamps mt hotness u now
  rcases s.insert_eq mt hotness u now with ⟨p, m, w, heq, hins⟩ | ⟨e, w, p, bs, heq, -, hins⟩ |
    ⟨e, w, heq, -, hins⟩ <;> rw [hins]
  · exact hst.of_ok heq
  · exact hst.of_error heq
  · exact hst.of_error heq

theorem clearFaults_delete (s : MapState) (D : List (Uuid × List SSTablePath))
    (hid : (s.map.buckets.map Bucket.id).Nodup) :
    (s.delete D).clearFaults = s.clearFaults.delete D := by
  unfold delete clearFaults
  rcases BucketMap.deleteSstables_cases s.map D s.world hid with
    ⟨hpre, fs, heq, hd, hf⟩ | ⟨hpre, e, heq⟩ <;>
  rcases BucketMap.deleteSstables_cases s.map D ⟨s.world.fs, []⟩ hid with
    ⟨hpre', fs', heq', hd', hf'⟩ | ⟨hpre', e', heq'⟩
  · have hfs : fs' = fs := by
      cases fs
      cases fs'
      simp only [Fs.mk.injEq]
      exact ⟨hd'.trans hd.symm, funext fun q => (hf' q).trans (hf q).symm⟩
    rw [heq, heq', hfs]
  · exact absurd hpre hpre'
  · exact absurd hpre' hpre
  · rw [heq, heq']

end MapState

namespace Separated
variable {s : MapState}

theorem held_of_stamps (h : Separated s.clearFaults) {now : Nat} (hnow : s.clock < now)
    {w' : World} (hst : Stamps now s.world w') :
    ∀ q ∈ s.map.paths, w'.fs.files q = s.world.fs.files q := fun q hq => by
  obtain ⟨t, ht, hq'⟩ := h.stamped q hq
  refine hst q fun he => ?_
  rw [hq', Option.some.injEq] at he
  change t ≤ s.clock at ht
  omega

theorem insert_failed (h : Separated s.clearFaults) {now : Nat} (hnow : s.clock < now)
    {w' : World} (hg : Grows s.world w') (hst : Stamps now s.world w') :
    Separated { s with world := w', clock := now }.clearFaults := by
  have hw : WritesAt now s.clearFaults.world ⟨w'.fs, []⟩ := fun _ => ⟨rfl, hg.1, hg.2, hst⟩
  obtain ⟨-, hd', hheld, hfresh'⟩ := h.writesAt_later hnow hw
  refine ⟨rfl, fun b hb => ⟨(h.homes b hb).1, hd' _ (h.homes b hb).2⟩, h.ids, h.nodup,
    fun q hq => ?_, hfresh', fun q hq => ?_⟩
  · obtain ⟨t, ht, hq'⟩ := h.stamped q hq
    exact ⟨t, by dsimp only [MapState.clearFaults] at ht ⊢; omega, hq'⟩
  · obtain ⟨E, hE, hc⟩ := h.contents q hq
    exact ⟨E, hE, by rw [← hheld q hq] at hc; exact hc⟩

theorem missing_of_pushed_whatever_fails (h : Separated s.clearFaults) {mt : Memtable}
    {hotness : Nat} {u : Uuid} {now : Nat} (hnow : s.clock < now) {p : SSTablePath}
    {bs : List Bucket} (hpush : pushedInPlace mt hotness now s.world s.map.buckets = some (p, bs))
    (hfail : s.insertedPath mt hotness u now = none) :
    ∃ q ∈ s.map.paths, s.world.fs.files q = none := by
  obtain ⟨e, w', heq⟩ : ∃ e w', s.map.insertToAppropriateBucket mt hotness u now s.world = .error e w' := by
    cases heq : s.map.insertToAppropriateBucket mt hotness u now s.world with
    | ok r w' => simp [MapState.insertedPath, heq] at hfail
    | error e w' => exact ⟨e, w', rfl⟩
  obtain ⟨hpush', heq'⟩ := s.map.insertToAppropriateBucket_faultFree_of_pushed heq hpush
  exact h.missing_of_pushed hnow hpush' (show s.clearFaults.insertedPath mt hotness u now = none by
    simp only [MapState.insertedPath, MapState.clearFaults, heq'])

theorem insert_ok_shape (h : Separated s.clearFaults) {mt : Memtable} {hotness : Nat} {u : Uuid}
    {now : Nat} (hnow : s.clock < now) {p : SSTablePath}
    (hp : s.insertedPath mt hotness u now = some p) :
    p.filePath ∉ s.map.paths ∧
      (s.insert mt hotness u now).map.paths.Perm (s.map.paths ++ [p.filePath]) ∧
      ((∃ pre b post a, s.map.buckets = pre ++ b :: post ∧
          (s.insert mt hotness u now).map.buckets = pre ++ { b.push p with avarageSize := a } :: post) ∨
        ∃ a, (s.insert mt hotness u now).map.buckets =
          s.map.buckets ++ [⟨u, s.map.dir.join (.bucket u), a, [p]⟩]) := by
  obtain ⟨hcl, hpath⟩ := MapState.clearFaults_insert fun hf : s.FailsBeforePush mt hotness u now =>
    absurd (hf.1.symm.trans hp) nofun
  have hmap : (s.clearFaults.insert mt hotness u now).map = (s.insert mt hotness u now).map := by
    rw [hcl]
    rfl
  obtain ⟨-, -, -, -, -, ⟨hnone, -⟩ | ⟨p', hstamp, hpaths, -, -, -, -, ⟨hp', hok⟩ | ⟨hnone, -⟩⟩⟩ :=
    h.insert_cases mt hotness u hnow rfl
  · exact absurd (hnone.symm.trans (hpath.trans hp)) nofun
  swap
  · exact absurd (hnone.symm.trans (hpath.trans hp)) nofun
  obtain rfl : p' = p := Option.some.inj (hp'.symm.trans (hpath.trans hp))
  rw [hmap] at hpaths hok
  refine ⟨fun hq => ?_, hpaths, ?_⟩
  · obtain ⟨t, ht, hq'⟩ := h.stamped _ hq
    rw [hstamp, Option.some.injEq] at hq'
    change t ≤ s.clock at ht
    omega
  rcases (BucketMap.insertToAppropriateBucket_ok hok).2.2.2 with
    ⟨pre, b, post, hbs, -, -, rfl, hm'⟩ | ⟨-, hfree, -, rfl, hm'⟩
  · exact .inl ⟨pre, b, post, _, hbs, hm'⟩
  · rw [insertBucket_of_absent (h.absent_of_free hfree)] at hm'
    exact .inr ⟨_, hm'⟩

theorem insert_whatever_fails (h : Separated s.clearFaults) (mt : Memtable) (hotness : Nat)
    (u : Uuid) {now : Nat} (hnow : s.clock < now) :
    Separated (s.insert mt hotness u now).clearFaults := by
  by_cases hf : s.FailsBeforePush mt hotness u now
  · obtain ⟨e, w', heq, hins⟩ := MapState.insert_of_failsBeforePush hf
    rw [hins]
    exact h.insert_failed hnow
      ((s.map.insertToAppropriateBucket_grows mt hotness u now).of_error heq)
      ((s.map.insertToAppropriateBucket_stamps mt hotness u now).of_error heq)
  · exact (MapState.clearFaults_insert hf).1 ▸ h.insert mt hotness u hnow

theorem clearFaults_of_reachable {s₀ s : MapState} (h₀ : Separated s₀.clearFaults)
    (hrun : ReflTransGen (Step (· < ·)) s₀ s) : Separated s.clearFaults := by
  induction hrun with
  | refl => exact h₀
  | @tail s₁ _ _ hstep ih =>
    cases hstep with
    | grow hg =>
      cases hg with
      | insert mt hotness u now hnow => exact ih.insert_whatever_fails mt hotness u hnow
      | reorder buckets hp => exact ih.reorder hp
    | delete D => exact MapState.clearFaults_delete s₁ D ih.ids ▸ ih.delete D

end Separated

/-- From an empty map, on a disk where no file is named by a clock reading later than the first,
every run of inserts at strictly increasing clock readings, `delete_sstables` calls and
reorderings keeps the data files apart, whichever writes fail: no path is held twice, each holds
exactly the entries of the one table written for it or nothing, bucket ids stay unique, and each
bucket lives in a directory of its own. The next insert, at a later reading, changes no file but
those the reading names; if it fails before the push the map and the history stay, and otherwise
it does what it does when no write fails. -/
theorem dataFiles_stay_apart_whatever_fails (dir : Path) {w : World} {clock : Nat}
    (hfresh : ∀ q t, q.stamp = some t → clock < t → w.fs.files q = none) {s : MapState}
    (hrun : ReflTransGen (Step (· < ·)) (MapState.init dir w clock) s) :
    s.map.paths.Nodup ∧ (∀ q ∈ s.map.paths, ∃ E, s.written q = some E ∧
      (s.world.fs.files q = some (dataBytes E) ∨ s.world.fs.files q = none)) ∧
      (s.map.buckets.map Bucket.id).Nodup ∧
      (∀ b ∈ s.map.buckets, b.dir = s.map.dir.join (.bucket b.id) ∧ s.world.fs.dirs b.dir = true) ∧
      ∀ mt hotness u now, s.clock < now →
        (∀ q, q.stamp ≠ some now → (s.insert mt hotness u now).world.fs.files q = s.world.fs.files q) ∧
        (s.FailsBeforePush mt hotness u now →
          (s.insert mt hotness u now).map = s.map ∧ (s.insert mt hotness u now).written = s.written) ∧
        (¬ s.FailsBeforePush mt hotness u now →
          (s.insert mt hotness u now).clearFaults = s.clearFaults.insert mt hotness u now) :=
  have h₀ : Separated (MapState.init dir w clock).clearFaults := Separated.init dir rfl hfresh
  have h := h₀.clearFaults_of_reachable hrun
  ⟨h.nodup, h.contents, h.ids, h.homes, fun mt hotness u now _ =>
    ⟨s.insert_stamps mt hotness u now,
      fun hf => let ⟨_, _, _, hins⟩ := MapState.insert_of_failsBeforePush hf; hins ▸ ⟨rfl, rfl⟩,
      fun hf => (MapState.clearFaults_insert hf).1.symm⟩⟩

/-- A flush onto an empty disk whose first write fails, then a flush under a new bucket id. -/
def flushAfterFailedWrite : MapState :=
  ((MapState.init db ⟨Fs.empty, [some 0]⟩ 0).insert oneEntry 1 0 1).insert oneEntry 1 1 2

/-- The second flush's table is the only one held; the first one's data file stays on disk,
empty and held by no bucket. -/
theorem dataFiles_stay_apart_after_failed_write :
    flushAfterFailedWrite.map.paths = [(db.join (.bucket 1)).join (.sstable 2)] ∧
      flushAfterFailedWrite.world.fs.files ((db.join (.bucket 0)).join (.sstable 1)) = some [] ∧
      (flushAfterFailedWrite.map.paths.Nodup ∧ (∀ q ∈ flushAfterFailedWrite.map.paths, ∃ E,
        flushAfterFailedWrite.written q = some E ∧
        (flushAfterFailedWrite.world.fs.files q = some (dataBytes E) ∨
          flushAfterFailedWrite.world.fs.files q = none)) ∧
        (flushAfterFailedWrite.map.buckets.map Bucket.id).Nodup ∧
        (∀ b ∈ flushAfterFailedWrite.map.buckets,
          b.dir = flushAfterFailedWrite.map.dir.join (.bucket b.id) ∧
          flushAfterFailedWrite.world.fs.dirs b.dir = true) ∧
        ∀ mt hotness u now, flushAfterFailedWrite.clock < now →
          (∀ q, q.stamp ≠ some now → (flushAfterFailedWrite.insert mt hotness u now).world.fs.files q =
            flushAfterFailedWrite.world.fs.files q) ∧
          (flushAfterFailedWrite.FailsBeforePush mt hotness u now →
            (flushAfterFailedWrite.insert mt hotness u now).map = flushAfterFailedWrite.map ∧
            (flushAfterFailedWrite.insert mt hotness u now).written = flushAfterFailedWrite.written) ∧
          (¬ flushAfterFailedWrite.FailsBeforePush mt hotness u now →
            (flushAfterFailedWrite.insert mt hotness u now).clearFaults =
              flushAfterFailedWrite.clearFaults.insert mt hotness u now)) :=
  ⟨by decide, rfl, dataFiles_stay_apart_whatever_fails db (fun _ _ _ _ => rfl)
    (.tail (.single (.grow (.insert _ oneEntry 1 0 1 (by decide))))
      (.grow (.insert _ oneEntry 1 1 2 (by rw [MapState.insert_clock]; decide))))⟩

/-- From an empty map, over every run at strictly increasing clock readings whatever writes fail,
the next insert at a later reading: if it succeeds, the map holds the paths it held and the new
one, which it did not hold, and exactly one bucket changed, an existing one taking the path with
every member raised or a new one holding only it; if it returns an error of `write_to_file`, the
map is as it was and nothing is removed, but the table's two files, absent before, stay in the
directory of the bucket it chose or the one it made. -/
theorem insert_changes_one_bucket (dir : Path) {w : World} {clock : Nat}
    (hfresh : ∀ q t, q.stamp = some t → clock < t → w.fs.files q = none) {s : MapState}
    (hrun : ReflTransGen (Step (· < ·)) (MapState.init dir w clock) s) (mt : Memtable)
    (hotness : Nat) (u : Uuid) {now : Nat} (hnow : s.clock < now) :
    (∀ p, s.insertedPath mt hotness u now = some p → p.filePath ∉ s.map.paths ∧
      (s.insert mt hotness u now).map.paths.Perm (s.map.paths ++ [p.filePath]) ∧
      ((∃ pre b post a, s.map.buckets = pre ++ b :: post ∧
          (s.insert mt hotness u now).map.buckets = pre ++ { b.push p with avarageSize := a } :: post) ∨
        ∃ a, (s.insert mt hotness u now).map.buckets =
          s.map.buckets ++ [⟨u, s.map.dir.join (.bucket u), a, [p]⟩])) ∧
    ∀ e w', s.map.insertToAppropriateBucket mt hotness u now s.world = .error e w' →
      (∀ msg, e ≠ .panic msg) →
      (s.insert mt hotness u now).map = s.map ∧ Grows s.world (s.insert mt hotness u now).world ∧
      ∃ d, ((∃ b ∈ s.map.buckets, fitsBucket b.avarageSize mt.size = true ∧ d = b.dir) ∨
          (∀ b ∈ s.map.buckets, fitsBucket b.avarageSize mt.size = false) ∧
            d = s.map.dir.join (.bucket u) ∧ (s.insert mt hotness u now).world.fs.dirs d = true) ∧
        s.world.fs.files (d.join (.sstable now)) = none ∧
        s.world.fs.files (d.join (.index now)) = none ∧
        HasTableFiles d now (s.insert mt hotness u now).world := by
  have h₀ : Separated (MapState.init dir w clock).clearFaults := Separated.init dir rfl hfresh
  have h := h₀.clearFaults_of_reachable hrun
  refine ⟨fun p hp => h.insert_ok_shape hnow hp, fun e w' herr hpanic => ?_⟩
  obtain ⟨e', w'', herr', hins⟩ :=
    MapState.insert_of_failsBeforePush (MapState.failsBeforePush_of_error herr hpanic)
  rw [herr] at herr'
  cases herr'
  obtain ⟨d, hd, hfiles⟩ := insertToAppropriateBucket_error_tableFiles herr (hpanic _)
  rw [hins]
  exact ⟨rfl, (s.map.insertToAppropriateBucket_grows mt hotness u now).of_error herr, d, hd,
    h.fresh _ now rfl hnow, h.fresh _ now rfl hnow, hfiles⟩

/-- After one flush, a second one at a later reading, which joins the first one's bucket. -/
theorem insert_changes_one_bucket_second_flush :
    ReflTransGen (Step (· < ·)) (MapState.init db ⟨Fs.empty, []⟩ 0)
        ((MapState.init db ⟨Fs.empty, []⟩ 0).insert oneEntry 1 0 1) ∧
      ((MapState.init db ⟨Fs.empty, []⟩ 0).insert oneEntry 1 0 1).clock < 2 ∧
      ((MapState.init db ⟨Fs.empty, []⟩ 0).insert oneEntry 1 0 1).insertedPath oneEntry 1 1 2 =
        some ⟨(db.join (.bucket 0)).join (.sstable 2), 1⟩ ∧
      ((∀ p, ((MapState.init db ⟨Fs.empty, []⟩ 0).insert oneEntry 1 0 1).insertedPath oneEntry 1 1 2 =
          some p → p.filePath ∉ ((MapState.init db ⟨Fs.empty, []⟩ 0).insert oneEntry 1 0 1).map.paths ∧
        (((MapState.init db ⟨Fs.empty, []⟩ 0).insert oneEntry 1 0 1).insert oneEntry 1 1 2).map.paths.Perm
          (((MapState.init db ⟨Fs.empty, []⟩ 0).insert oneEntry 1 0 1).map.paths ++ [p.filePath]) ∧
        ((∃ pre b post a, ((MapState.init db ⟨Fs.empty, []⟩ 0).insert oneEntry 1 0 1).map.buckets =
            pre ++ b :: post ∧
            (((MapState.init db ⟨Fs.empty, []⟩ 0).insert oneEntry 1 0 1).insert oneEntry 1 1 2).map.buckets =
              pre ++ { b.push p with avarageSize := a } :: post) ∨
          ∃ a, (((MapState.init db ⟨Fs.empty, []⟩ 0).insert oneEntry 1 0 1).insert oneEntry 1 1 2).map.buckets =
            ((MapState.init db ⟨Fs.empty, []⟩ 0).insert oneEntry 1 0 1).map.buckets ++
              [⟨1, ((MapState.init db ⟨Fs.empty, []⟩ 0).insert oneEntry 1 0 1).map.dir.join (.bucket 1), a,
                [p]⟩])) ∧
      ∀ e w', ((MapState.init db ⟨Fs.empty, []⟩ 0).insert oneEntry 1 0 1).map.insertToAppropriateBucket
          oneEntry 1 1 2 ((MapState.init db ⟨Fs.empty, []⟩ 0).insert oneEntry 1 0 1).world = .error e w' →
        (∀ msg, e ≠ .panic msg) →
        (((MapState.init db ⟨Fs.empty, []⟩ 0).insert oneEntry 1 0 1).insert oneEntry 1 1 2).map =
            ((MapState.init db ⟨Fs.empty, []⟩ 0).insert oneEntry 1 0 1).map ∧
          Grows ((MapState.init db ⟨Fs.empty, []⟩ 0).insert oneEntry 1 0 1).world
            (((MapState.init db ⟨Fs.empty, []⟩ 0).insert oneEntry 1 0 1).insert oneEntry 1 1 2).world ∧
          ∃ d, ((∃ b ∈ ((MapState.init db ⟨Fs.empty, []⟩ 0).insert oneEntry 1 0 1).map.buckets,
                fitsBucket b.avarageSize oneEntry.size = true ∧ d = b.dir) ∨
              (∀ b ∈ ((MapState.init db ⟨Fs.empty, []⟩ 0).insert oneEntry 1 0 1).map.buckets,
                fitsBucket b.avarageSize oneEntry.size = false) ∧
              d = ((MapState.init db ⟨Fs.empty, []⟩ 0).insert oneEntry 1 0 1).map.dir.join (.bucket 1) ∧
                (((MapState.init db ⟨Fs.empty, []⟩ 0).insert oneEntry 1 0 1).insert oneEntry 1 1 2).world.fs.dirs
                  d = true) ∧
            ((MapState.init db ⟨Fs.empty, []⟩ 0).insert oneEntry 1 0 1).world.fs.files
              (d.join (.sstable 2)) = none ∧
            ((MapState.init db ⟨Fs.empty, []⟩ 0).insert oneEntry 1 0 1).world.fs.files
              (d.join (.index 2)) = none ∧
            HasTableFiles d 2
              (((MapState.init db ⟨Fs.empty, []⟩ 0).insert oneEntry 1 0 1).insert oneEntry 1 1 2).world) :=
  have hrun : ReflTransGen (Step (· < ·)) (MapState.init db ⟨Fs.empty, []⟩ 0)
      ((MapState.init db ⟨Fs.empty, []⟩ 0).insert oneEntry 1 0 1) :=
    .single (.grow (.insert _ oneEntry 1 0 1 (by decide)))
  ⟨hrun, by decide, rfl, insert_changes_one_bucket db (fun _ _ _ _ => rfl) hrun oneEntry 1 1 (by decide)⟩

/-- A flush onto an empty disk whose first write fails: the insert fails and the map stays
empty, but the new bucket's directory and the table's two files, made before the write, stay
on disk. -/
theorem failed_flush_leaves_bucket_and_files :
    (∃ w', (BucketMap.new db).insertToAppropriateBucket oneEntry 1 0 1 ⟨Fs.empty, [some 0]⟩ =
        .error (.writeError ((db.join (.bucket 0)).join (.sstable 1))) w') ∧
      ((MapState.init db ⟨Fs.empty, [some 0]⟩ 0).insert oneEntry 1 0 1).map.buckets = [] ∧
      ((MapState.init db ⟨Fs.empty, [some 0]⟩ 0).insert oneEntry 1 0 1).world.fs.dirs
        (db.join (.bucket 0)) = true ∧
      ((MapState.init db ⟨Fs.empty, [some 0]⟩ 0).insert oneEntry 1 0 1).world.fs.files
        ((db.join (.bucket 0)).join (.sstable 1)) = some [] ∧
      ((MapState.init db ⟨Fs.empty, [some 0]⟩ 0).insert oneEntry 1 0 1).world.fs.files
        ((db.join (.bucket 0)).join (.index 1)) = some [] :=
  ⟨⟨_, rfl⟩, rfl, rfl, rfl, rfl⟩


theorem Settled.of_held {s s' : MapState} (h : Settled s) (hm : s'.map = s.map)
    (hheld : ∀ q ∈ s.map.paths, s'.world.fs.files q = s.world.fs.files q) : Settled s' where
  files q hq := by
    rw [hm] at hq
    rw [hheld q hq]
    exact h.files q hq
  averages b hb := by
    rw [hm] at hb
    rw [Settled.meanFileLen_of_held hb hheld]
    exact h.averages b hb

theorem Settled.failsBeforePush {s : MapState} (hs : Separated s.clearFaults)
    (h : Settled s.clearFaults) {mt : Memtable} {hotness : Nat} {u : Uuid} {now : Nat}
    (hnow : s.clock < now) (hfail : s.insertedPath mt hotness u now = none) :
    s.FailsBeforePush mt hotness u now := by
  refine ⟨hfail, ?_⟩
  cases hpush : pushedInPlace mt hotness now s.world s.map.buckets with
  | none => rfl
  | some r =>
    obtain ⟨q, hq, hnone⟩ := hs.missing_of_pushed_whatever_fails hnow hpush hfail
    exact absurd (h.files q hq) (by simp [MapState.clearFaults, hnone])

theorem Settled.insert_whatever_fails {s : MapState} (hs : Separated s.clearFaults)
    (h : Settled s.clearFaults) (mt : Memtable) (hotness : Nat) (u : Uuid) {now : Nat}
    (hnow : s.clock < now) : Settled (s.insert mt hotness u now).clearFaults := by
  by_cases hf : s.FailsBeforePush mt hotness u now
  · obtain ⟨e, w', heq, hins⟩ := MapState.insert_of_failsBeforePush hf
    have hst := (s.map.insertToAppropriateBucket_stamps mt hotness u now).of_error heq
    rw [hins]
    exact h.of_held rfl (hs.held_of_stamps hnow hst)
  · exact (MapState.clearFaults_insert hf).1 ▸ h.insert hs mt hotness u hnow

theorem Settled.clearFaults_of_reachable {s₀ s : MapState} (hs₀ : Separated s₀.clearFaults)
    (h₀ : Settled s₀.clearFaults) (hrun : ReflTransGen (Grow (· < ·)) s₀ s) :
    Separated s.clearFaults ∧ Settled s.clearFaults := by
  induction hrun with
  | refl => exact ⟨hs₀, h₀⟩
  | tail _ hstep ih =>
    obtain ⟨hs, h⟩ := ih
    cases hstep with
    | insert mt hotness u now hnow =>
      exact ⟨hs.insert_whatever_fails mt hotness u hnow, h.insert_whatever_fails hs mt hotness u hnow⟩
    | reorder buckets hp => exact ⟨hs.reorder hp, h.reorder hp⟩

/-- Over every run of flushes from an empty map, at strictly increasing clock readings and
whichever writes fail, every bucket holds a table and its average is the floor of the mean length
of its members' data files; and a failed flush at a later reading changes no bucket and no
member's file. -/
theorem averages_exact_whatever_fails (dir : Path) {w : World} {clock : Nat}
    (hfresh : ∀ q t, q.stamp = some t → clock < t → w.fs.files q = none) {s : MapState}
    (hrun : ReflTransGen (Grow (· < ·)) (MapState.init dir w clock) s) :
    (∀ b ∈ s.map.buckets, b.sstables ≠ [] ∧
      b.avarageSize = (b.sstables.map fun p => fileLen s.world.fs p.filePath).sum /
        b.sstables.length) ∧
      ∀ mt hotness u now, s.clock < now → s.insertedPath mt hotness u now = none →
        (s.insert mt hotness u now).map = s.map ∧
          ∀ q ∈ s.map.paths, (s.insert mt hotness u now).world.fs.files q = s.world.fs.files q := by
  have hs₀ : Separated (MapState.init dir w clock).clearFaults := Separated.init dir rfl hfresh
  obtain ⟨hs, h⟩ := Settled.clearFaults_of_reachable hs₀ (Settled.init dir _ clock) hrun
  refine ⟨h.averages, fun mt hotness u now hnow hfail => ?_⟩
  obtain ⟨e, w', heq, hins⟩ := MapState.insert_of_failsBeforePush (h.failsBeforePush hs hnow hfail)
  rw [hins]
  exact ⟨rfl, hs.held_of_stamps hnow
    ((s.map.insertToAppropriateBucket_stamps mt hotness u now).of_error heq)⟩

/-- The same two flushes; the first one fails and changes no bucket. -/
theorem averages_exact_after_failed_write :
    ReflTransGen (Grow (· < ·)) (MapState.init db ⟨Fs.empty, [some 0]⟩ 0) flushAfterFailedWrite ∧
      (MapState.init db ⟨Fs.empty, [some 0]⟩ 0).insertedPath oneEntry 1 0 1 = none ∧
      ((∀ b ∈ flushAfterFailedWrite.map.buckets, b.sstables ≠ [] ∧
        b.avarageSize = (b.sstables.map fun p =>
          fileLen flushAfterFailedWrite.world.fs p.filePath).sum / b.sstables.length) ∧
        ∀ mt hotness u now, flushAfterFailedWrite.clock < now →
          flushAfterFailedWrite.insertedPath mt hotness u now = none →
          (flushAfterFailedWrite.insert mt hotness u now).map = flushAfterFailedWrite.map ∧
          ∀ q ∈ flushAfterFailedWrite.map.paths,
            (flushAfterFailedWrite.insert mt hotness u now).world.fs.files q =
              flushAfterFailedWrite.world.fs.files q) :=
  have hrun : ReflTransGen (Grow (· < ·)) (MapState.init db ⟨Fs.empty, [some 0]⟩ 0)
      flushAfterFailedWrite :=
    .tail (.single (.insert _ oneEntry 1 0 1 (by decide)))
      (.insert _ oneEntry 1 1 2 (by rw [MapState.insert_clock]; decide))
  ⟨hrun, rfl, averages_exact_whatever_fails db (fun _ _ _ _ => rfl) hrun⟩

end Velarix
