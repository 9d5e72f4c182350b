import Velarix.Bucket.Runs

/-! What a failed `insert_to_appropriate_bucket` leaves on disk, whatever the fault schedule: no
step removes a directory or a file, and the table's files made before the write stay. -/
namespace Velarix
set_option autoImplicit false
open Io SSTable

/-- Directories and files only appear. -/
def Grows (w w' : World) : Prop :=
  (∀ q, w.fs.dirs q = true → w'.fs.dirs q = true) ∧
    ∀ q, (w.fs.files q).isSome → (w'.fs.files q).isSome

namespace Grows

theorem refl (w : World) : Grows w w := ⟨fun _ => id, fun _ => id⟩

theorem trans {u v w : World} (h₁ : Grows u v) (h₂ : Grows v w) : Grows u w :=
  ⟨fun q hq => h₂.1 q (h₁.1 q hq), fun q hq => h₂.2 q (h₁.2 q hq)⟩

variable {α β : Type}

theorem keeps_pure (a : α) : Keeps Grows (pure a : Io α) := Io.keeps_pure refl a

theorem keeps_bind {x : Io α} {f : α → Io β} (hx : Keeps Grows x) (hf : ∀ a, Keeps Grows (f a)) :
    Keeps Grows (x >>= f) :=
  Io.keeps_bind (R := Grows) trans hx hf

theorem keeps_readOnly {x : Io α} (h : ∀ w, x.after w = w) : Keeps Grows x :=
  keeps_of_readOnly refl h

theorem setFile_some {w w' : World} {p : Path} {b : Bytes} (hfs : w'.fs = w.fs.setFile p (some b)) :
    Grows w w' :=
  ⟨fun q hq => by rw [hfs]; exact hq, fun q hq => by
    rw [hfs, Fs.setFile_files]
    split <;> simp_all⟩

end Grows

theorem writeAll_grows (p : Path) (b : Bytes) : Keeps Grows (writeAll p b) := fun w => by
  unfold after writeAll
  cases tearAt w.faults b.length <;> exact Grows.setFile_some rfl

theorem metadataLen_after (p : Path) (w : World) : (metadataLen p).after w = w := by
  cases h : w.fs.files p <;> simp [after, metadataLen, h]

theorem SSTable.new_grows (dir : Path) (now : Nat) : Keeps Grows (SSTable.new dir true now) :=
  fun w => by
    simp only [after, new_ok]
    refine ⟨fun q hq => by split <;> simp [hq], fun q hq => ?_⟩
    simp only [Fs.touch_files]
    split_ifs <;> simp_all

theorem writeBlock_grows (t : SSTable) (b : Block) (si : SparseIndex) :
    Keeps Grows (t.writeBlock b si) := by
  unfold writeBlock
  refine Grows.keeps_bind (Grows.keeps_readOnly (metadataLen_after _)) fun _ => ?_
  split
  · exact Grows.keeps_readOnly fun _ => rfl
  · exact Grows.keeps_bind (writeAll_grows _ _) fun _ => Grows.keeps_pure _

theorem writeBlocks_grows (t : SSTable) : ∀ (bs : List Block) (si : SparseIndex),
    Keeps Grows (t.writeBlocks bs si)
  | [], _ => Grows.keeps_pure _
  | b :: bs, si => Grows.keeps_bind (writeBlock_grows t b si) fun si => writeBlocks_grows t bs si

theorem writeToFile_grows (t : SSTable) : Keeps Grows t.writeToFile := by
  unfold writeToFile
  refine Grows.keeps_bind (Grows.keeps_readOnly fun w => ?_) fun ⟨blocks, current⟩ =>
    Grows.keeps_bind (writeBlocks_grows t blocks _) fun si => ?_
  · unfold after MonadExcept.ofExcept
    rcases fillBlocks t.entries.toList [] Block.new with _ | _ <;> rfl
  · dsimp only
    split
    · exact Grows.keeps_bind (writeBlock_grows t current si) fun _ => writeAll_grows _ _
    · exact Grows.keeps_bind (Grows.keeps_pure _) fun _ => writeAll_grows _ _

theorem writeSSTable_grows (d : Path) (mt : Memtable) (now : Nat) :
    Keeps Grows (writeSSTable d mt now) :=
  Grows.keeps_bind (SSTable.new_grows d now) fun _ =>
    Grows.keeps_bind (writeToFile_grows _) fun _ => Grows.keeps_pure _

theorem writeIntoBucket_grows (b : Bucket) (mt : Memtable) (hotness now : Nat) :
    Keeps Grows (writeIntoBucket b mt hotness now) :=
  Grows.keeps_bind (writeSSTable_grows _ _ _) fun _ =>
    Grows.keeps_bind (Grows.keeps_readOnly (sumFileLens_after _)) fun _ => Grows.keeps_pure _

theorem placeInBuckets_grows (mt : Memtable) (hotness now : Nat) :
    ∀ bs, Keeps Grows (placeInBuckets mt hotness now bs)
  | [] => Grows.keeps_pure _
  | b :: bs => by
    rw [placeInBuckets]
    split
    · exact Grows.keeps_bind (writeIntoBucket_grows _ _ _ _) fun ⟨_, _⟩ => Grows.keeps_pure _
    · exact Grows.keeps_bind (placeInBuckets_grows mt hotness now bs) fun
        | none => Grows.keeps_pure _
        | some ⟨_, _⟩ => Grows.keeps_pure _

theorem Bucket.new_grows (dir : Path) (bucketId : Uuid) : Keeps Grows (Bucket.new dir bucketId) :=
  fun w => by
    by_cases hd : (w.fs.dirs (dir.join (.bucket bucketId)) ||
        (w.fs.files (dir.join (.bucket bucketId))).isSome) = true <;>
      simp only [after, Bucket.new_eq, hd, if_true, if_false, Bool.false_eq_true]
    · exact Grows.refl w
    · exact ⟨fun q hq => by simp [hq], fun _ h => h⟩

theorem BucketMap.insertToAppropriateBucket_grows (m : BucketMap) (mt : Memtable)
    (hotness bucketId now : Nat) : Keeps Grows (m.insertToAppropriateBucket mt hotness bucketId now) := by
  unfold BucketMap.insertToAppropriateBucket
  refine Grows.keeps_bind (placeInBuckets_grows _ _ _ _) fun
    | none => ?_
    | some ⟨_, _⟩ => Grows.keeps_pure _
  exact Grows.keeps_bind (Bucket.new_grows _ _) fun _ =>
    Grows.keeps_bind (writeSSTable_grows _ _ _) fun _ =>
      Grows.keeps_bind (Grows.keeps_readOnly (metadataLenUnwrap_after _)) fun _ => Grows.keeps_pure _

/-- The two files of the table written under `d` at clock reading `now` are on disk. -/
def HasTableFiles (d : Path) (now : Nat) (w : World) : Prop :=
  (w.fs.files (d.join (.sstable now))).isSome ∧ (w.fs.files (d.join (.index now))).isSome

theorem HasTableFiles.grows {d : Path} {now : Nat} {w w' : World} (h : HasTableFiles d now w)
    (hg : Grows w w') : HasTableFiles d now w' :=
  ⟨hg.2 _ h.1, hg.2 _ h.2⟩

theorem after_bind {α β : Type} {P : World → Prop} (hP : ∀ {w w'}, P w → Grows w w' → P w')
    {x : Io α} {f : α → Io β} (hx : ∀ w, P (x.after w)) (hf : ∀ a, Keeps Grows (f a)) (w : World) :
    P ((x >>= f).after w) := by
  have := hx w
  unfold after at this ⊢
  simp only [bind, EStateM.bind]
  split at this <;> rename_i hxw <;> rw [hxw]
  · exact hP this (hf _ _)
  · exact this

theorem of_bind_error {α β : Type} {P : World → Prop} (hP : ∀ {w w'}, P w → Grows w w' → P w')
    {x : Io α} {f : α → Io β} (hxg : Keeps Grows x) (hx : ∀ w, P (x.after w))
    (hf : ∀ a, Keeps Grows (f a)) {w w' : World} {e : StorageEngineError}
    (h : (x >>= f) w = .error e w') : Grows w w' ∧ P w' := by
  have := after_bind hP hx hf w
  rw [after, h] at this
  exact ⟨(Grows.keeps_bind hxg hf).of_error h, this⟩

theorem SSTable.new_hasTableFiles (d : Path) (now : Nat) (w : World) :
    HasTableFiles d now ((SSTable.new d true now).after w) := by
  have hdi : d.join (.sstable now) ≠ d.join (.index now) := by simp
  rw [after, new_ok]
  simp [HasTableFiles, Fs.touch_files, hdi]

theorem writeSSTable_hasTableFiles (d : Path) (mt : Memtable) (now : Nat) (w : World) :
    HasTableFiles d now ((writeSSTable d mt now).after w) :=
  after_bind HasTableFiles.grows (SSTable.new_hasTableFiles d now)
    (fun _ => Grows.keeps_bind (writeToFile_grows _) fun _ => Grows.keeps_pure _) w

theorem writeIntoBucket_hasTableFiles (b : Bucket) (mt : Memtable) (hotness now : Nat) (w : World) :
    HasTableFiles b.dir now ((writeIntoBucket b mt hotness now).after w) :=
  after_bind HasTableFiles.grows (writeSSTable_hasTableFiles b.dir mt now)
    (fun _ => Grows.keeps_bind (Grows.keeps_readOnly (sumFileLens_after _)) fun _ =>
      Grows.keeps_pure _) w

theorem placeInBuckets_eq_error {mt : Memtable} {hotness now : Nat} :
    ∀ {bs : List Bucket} {w w' : World} {e : StorageEngineError},
      placeInBuckets mt hotness now bs w = .error e w' →
      ∃ b ∈ bs, fitsBucket b.avarageSize mt.size = true ∧ HasTableFiles b.dir now w'
  | [], _, _, _, h => by cases h
  | b :: bs, w, w', e, h => by
    rw [placeInBuckets] at h
    split at h
    · next hb =>
      rcases bind_eq_error h with h | ⟨⟨_, _⟩, _, _, h⟩
      · refine ⟨b, List.mem_cons_self _ _, hb, ?_⟩
        have := writeIntoBucket_hasTableFiles b mt hotness now w
        rwa [after, h] at this
      · cases h
    · rcases bind_eq_error h with h | ⟨r, _, _, h⟩
      · obtain ⟨x, hx, hfx, hfiles⟩ := placeInBuckets_eq_error h
        exact ⟨x, List.mem_cons_of_mem _ hx, hfx, hfiles⟩
      · rcases r with _ | ⟨_, _⟩ <;> cases h

theorem insertToAppropriateBucket_error_tableFiles {m : BucketMap} {mt : Memtable}
    {hotness bucketId now : Nat} {w w' : World} {e : StorageEngineError}
    (h : m.insertToAppropriateBucket mt hotness bucketId now w = .error e w')
    (he : e ≠ .panic "Unable to create file") :
    ∃ d, ((∃ b ∈ m.buckets, fitsBucket b.avarageSize mt.size = true ∧ d = b.dir) ∨
      (∀ b ∈ m.buckets, fitsBucket b.avarageSize mt.size = false) ∧
        d = m.dir.join (.bucket bucketId) ∧ w'.fs.dirs d = true) ∧ HasTableFiles d now w' := by
  unfold BucketMap.insertToAppropriateBucket at h
  rcases bind_eq_error h with h | ⟨r, w₁, hr, h⟩
  · obtain ⟨b, hb, hfit, hfiles⟩ := placeInBuckets_eq_error h
    exact ⟨b.dir, .inl ⟨b, hb, hfit, rfl⟩, hfiles⟩
  rcases r with _ | ⟨_, _⟩
  · have hnone := (placeInBuckets_ok_none hr).2
    rcases bind_eq_error h with h | ⟨b, w₂, hb, h⟩
    · rw [Bucket.new_eq] at h
      split at h <;> cases h
      exact absurd rfl he
    rw [Bucket.new_eq] at hb
    split at hb
    · cases hb
    cases hb
    obtain ⟨hg, hfiles⟩ := of_bind_error HasTableFiles.grows (writeSSTable_grows _ _ _)
      (writeSSTable_hasTableFiles _ mt now) (fun _ =>
        Grows.keeps_bind (Grows.keeps_readOnly (metadataLenUnwrap_after _)) fun _ =>
          Grows.keeps_pure _) h
    exact ⟨_, .inr ⟨hnone, rfl, hg.1 _ (by simp)⟩, hfiles⟩
  · cases h

/-- A failed insert removes no directory and no file; and unless it panicked on a new bucket's
directory that was already there, it leaves the table's two files behind. -/
theorem insertToAppropriateBucket_eq_error {m : BucketMap} {mt : Memtable}
    {hotness bucketId now : Nat} {w w' : World} {e : StorageEngineError}
    (h : m.insertToAppropriateBucket mt hotness bucketId now w = .error e w')
    (he : e ≠ .panic "Unable to create file") :
    Grows w w' ∧ ∃ d, ((∃ b ∈ m.buckets, fitsBucket b.avarageSize mt.size = true ∧ d = b.dir) ∨
      (∀ b ∈ m.buckets, fitsBucket b.avarageSize mt.size = false) ∧
        d = m.dir.join (.bucket bucketId) ∧ w'.fs.dirs d = true) ∧ HasTableFiles d now w' :=
  ⟨(BucketMap.insertToAppropriateBucket_grows m mt hotness bucketId now).of_error h,
    insertToAppropriateBucket_error_tableFiles h he⟩

theorem insertToAppropriateBucket_eq_error_first_write :
    ∃ w', (BucketMap.new db).insertToAppropriateBucket oneEntry 1 0 1 ⟨Fs.empty, [some 0]⟩ =
        .error (.writeError ((db.join (.bucket 0)).join (.sstable 1))) w' ∧
      .writeError ((db.join (.bucket 0)).join (.sstable 1)) ≠ StorageEngineError.panic
        "Unable to create file" ∧
      (Grows ⟨Fs.empty, [some 0]⟩ w' ∧ ∃ d, ((∃ b ∈ (BucketMap.new db).buckets,
          fitsBucket b.avarageSize oneEntry.size = true ∧ d = b.dir) ∨
        (∀ b ∈ (BucketMap.new db).buckets, fitsBucket b.avarageSize oneEntry.size = false) ∧
          d = (BucketMap.new db).dir.join (.bucket 0) ∧ w'.fs.dirs d = true) ∧ HasTableFiles d 1 w') :=
  ⟨_, rfl, by decide, @insertToAppropriateBucket_eq_error (BucketMap.new db) oneEntry 1 0 1 _ _ _ rfl
    (by decide)⟩

end Velarix
