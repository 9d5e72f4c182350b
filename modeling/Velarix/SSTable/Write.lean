import Velarix.SkipMap
import Velarix.Fs

/-! `SSTable::new`, `write_to_file` and `write_block`, with the block and the sparse index
they fill. block.rs and sparse_index.rs are not in the source and are modelled from the spec. -/
namespace Velarix
open Io

/-- `(ValOffset, CreationTime, IsTombStone)`. -/
abbrev EntryValue := Nat × UInt64 × Bool

/-- One data-file record, `key_len:u32 ‖ key ‖ value_offset:u32 ‖ created_at:u64 ‖ is_tombstone:u8`. -/
def encodeEntry (keyPrefix : Nat) (key : Key) (valueOffset : Nat) (createdAt : UInt64)
    (isTombstone : Bool) : Bytes :=
  leBytes 4 keyPrefix ++ key ++ leBytes 4 valueOffset ++ leBytes 8 createdAt.toNat ++
    [if isTombstone then 1 else 0]

@[simp] theorem length_encodeEntry (keyPrefix : Nat) (key : Key) (valueOffset : Nat)
    (createdAt : UInt64) (isTombstone : Bool) :
    (encodeEntry keyPrefix key valueOffset createdAt isTombstone).length = key.length + 17 := by
  simp [encodeEntry]
  omega

/-- Modelled from the spec: an entry as `Block::set_entry` receives it. -/
structure BlockEntry where
  keyPrefix : Nat
  key : Key
  valueOffset : Nat
  creationDate : UInt64
  isTombstone : Bool

def BlockEntry.encode (e : BlockEntry) : Bytes :=
  encodeEntry e.keyPrefix e.key e.valueOffset e.creationDate e.isTombstone

/-- Modelled from the spec: block.rs is not in the source. A block is a bounded buffer of
encoded entries ("fixed target size, e.g., 4 KiB"); the sparse index takes its first key. -/
structure Block where
  entries : List BlockEntry

/-- Modelled from the spec: the block's target size. -/
def blockSize : Nat := 4 * 1024

namespace Block

def new : Block := ⟨[]⟩

def data (b : Block) : Bytes := (b.entries.map BlockEntry.encode).flatten

/-- Modelled from the spec: true iff appending `entrySize` bytes would exceed the target. -/
def isFull (b : Block) (entrySize : Nat) : Bool := blockSize < b.data.length + entrySize

/-- Modelled from the spec: the block is bounded, so an entry that does not fit is refused. -/
def setEntry (b : Block) (keyPrefix : Nat) (key : Key) (valueOffset : Nat) (creationDate : UInt64)
    (isTombstone : Bool) : Except StorageEngineError Block :=
  if b.isFull (key.length + 17) then .error .blockIsFull
  else .ok ⟨b.entries ++ [⟨keyPrefix, key, valueOffset, creationDate, isTombstone⟩]⟩

def getFirstEntry (b : Block) : Option BlockEntry := b.entries.head?

/-- Modelled from the spec: the block's bytes are written where the file ends. -/
def writeToFile (b : Block) (p : Path) : Io Unit := writeAll p b.data

@[simp] theorem data_new : new.data = [] := rfl

@[simp] theorem data_append (b : Block) (e : BlockEntry) :
    (⟨b.entries ++ [e]⟩ : Block).data = b.data ++ e.encode := by
  simp [data]

theorem data_eq_nil {b : Block} : b.data = [] ↔ b.entries = [] := by
  cases b with
  | mk entries =>
    cases entries with
    | nil => simp [data]
    | cons e es => simp [data, BlockEntry.encode, encodeEntry]

end Block

/-- Modelled from the spec: one `(key_len:u32, key, block_offset:u32)` record per block, in
the order the blocks were written. -/
structure SparseIndex where
  filePath : Path
  entries : List (Nat × Key × Nat)

namespace SparseIndex

def new (p : Path) : SparseIndex := ⟨p, []⟩

def insert (si : SparseIndex) (keyPrefix : Nat) (key : Key) (offset : Nat) : SparseIndex :=
  { si with entries := si.entries ++ [(keyPrefix, key, offset)] }

@[simp] theorem insert_filePath (si : SparseIndex) (keyPrefix : Nat) (key : Key) (offset : Nat) :
    (si.insert keyPrefix key offset).filePath = si.filePath := rfl

def writeToFile (si : SparseIndex) : Io Unit :=
  writeAll si.filePath (si.entries.map fun (kp, k, o) => leBytes 4 kp ++ k ++ leBytes 4 o).flatten

end SparseIndex

/-- The fields of `SSTable` the engine reads; the open file handles are the files of the world. -/
structure SSTable where
  dataFilePath : Path
  indexFilePath : Path
  sstableDir : Path
  entries : SkipMap EntryValue
  createdAt : Nat
  size : Nat

namespace SSTable

/-- `SSTable::new`: both file names carry the clock reading `now`, in milliseconds. -/
def new (dir : Path) (createFile : Bool) (now : Nat) : Io SSTable := do
  unless (← pathExists dir) do createDirAll dir
  let dataFilePath := dir.join (.sstable now)
  let indexFilePath := dir.join (.index now)
  if createFile then
    openAppendCreate dataFilePath
    openAppendCreate indexFilePath
  pure ⟨dataFilePath, indexFilePath, dir, SkipMap.empty, now, 0⟩

theorem new_ok (dir : Path) (now : Nat) (w : World) :
    SSTable.new dir true now w =
      .ok ⟨dir.join (.sstable now), dir.join (.index now), dir, SkipMap.empty, now, 0⟩
        ⟨((if w.fs.dirs dir || (w.fs.files dir).isSome then w.fs else w.fs.addDir dir).touch
          (dir.join (.sstable now))).touch (dir.join (.index now)), w.faults⟩ := by
  by_cases h : w.fs.dirs dir || (w.fs.files dir).isSome <;>
    simp [SSTable.new, pathExists, h, bind, EStateM.bind, createDirAll, openAppendCreate, pure,
      EStateM.pure]

/-- `set_sst_size_from_entries`, with `SIZE_OF_USIZE = 8` on a 64-bit target. -/
def sstSizeFromEntries (m : SkipMap EntryValue) : Nat :=
  (m.toList.map fun e => e.1.length + 8 + 8 + 1).sum

/-- `set_entries` (`set_index` in the bucket coordinator). -/
def setEntries (t : SSTable) (m : SkipMap EntryValue) : SSTable :=
  { t with entries := m, size := sstSizeFromEntries m }

@[simp] theorem setEntries_dataFilePath (t : SSTable) (m : SkipMap EntryValue) :
    (t.setEntries m).dataFilePath = t.dataFilePath := rfl

@[simp] theorem setEntries_indexFilePath (t : SSTable) (m : SkipMap EntryValue) :
    (t.setEntries m).indexFilePath = t.indexFilePath := rfl

@[simp] theorem setEntries_entries (t : SSTable) (m : SkipMap EntryValue) :
    (t.setEntries m).entries = m := rfl

/-- The entry loop of `write_to_file`: the full blocks so far, and the current block. -/
def fillBlocks : List (Key × EntryValue) → List Block → Block →
    Except StorageEngineError (List Block × Block)
  | [], blocks, current => .ok (blocks, current)
  | (key, valOffset, createdAt, isTombstone) :: es, blocks, current =>
    let entrySize := key.length + 4 + 4 + 8 + 1
    let (blocks, current) :=
      if current.isFull entrySize then (blocks ++ [current], Block.new) else (blocks, current)
    match current.setEntry (key.length % 2 ^ 32) key (valOffset % 2 ^ 32) createdAt isTombstone with
    | .error e => .error e
    | .ok current => fillBlocks es blocks current

/-- `write_block`: the offset the block starts at goes to the sparse index. -/
def writeBlock (t : SSTable) (block : Block) (sparseIndex : SparseIndex) : Io SparseIndex := do
  let offset ← metadataLen t.dataFilePath
  match block.getFirstEntry with
  | none => throw (.panic "index out of bounds")
  | some first =>
    let sparseIndex := sparseIndex.insert first.keyPrefix first.key (offset % 2 ^ 32)
    block.writeToFile t.dataFilePath
    pure sparseIndex

def writeBlocks (t : SSTable) : List Block → SparseIndex → Io SparseIndex
  | [], sparseIndex => pure sparseIndex
  | b :: bs, sparseIndex => do t.writeBlocks bs (← t.writeBlock b sparseIndex)

def writeToFile (t : SSTable) : Io Unit := do
  let sparseIndex := SparseIndex.new t.indexFilePath
  let (blocks, current) ← MonadExcept.ofExcept (fillBlocks t.entries.toList [] Block.new)
  let sparseIndex ← t.writeBlocks blocks sparseIndex
  let sparseIndex ← if 0 < current.data.length then t.writeBlock current sparseIndex
    else pure sparseIndex
  sparseIndex.writeToFile

/-- The record `write_to_file` emits for one entry, after its `as u32` casts. -/
def recordOf (e : Key × EntryValue) : Bytes :=
  encodeEntry (e.1.length % 2 ^ 32) e.1 (e.2.1 % 2 ^ 32) e.2.2.1 e.2.2.2

/-- The data file of a table: its records in ascending key order, with no block framing. -/
def dataBytes (m : SkipMap EntryValue) : Bytes := (m.toList.map recordOf).flatten

/-- Every entry fits in one block. -/
def FitsBlocks (es : List (Key × EntryValue)) : Prop := ∀ e ∈ es, e.1.length + 17 ≤ blockSize

instance (es : List (Key × EntryValue)) : Decidable (FitsBlocks es) :=
  inferInstanceAs (Decidable (∀ e ∈ es, e.1.length + 17 ≤ blockSize))

private theorem setEntry_ok {b : Block} {kp : Nat} {k : Key} {o : Nat} {t : UInt64} {d : Bool}
    (h : b.isFull (k.length + 17) = false) :
    b.setEntry kp k o t d = .ok ⟨b.entries ++ [⟨kp, k, o, t, d⟩]⟩ := by
  simp [Block.setEntry, h]

theorem fillBlocks_ok : ∀ (es : List (Key × EntryValue)) (blocks : List Block) (current : Block),
    FitsBlocks es → (∀ b ∈ blocks, b.entries ≠ []) →
    ∃ blocks' current', fillBlocks es blocks current = .ok (blocks', current') ∧
      (∀ b ∈ blocks', b.entries ≠ []) ∧
      (blocks'.map Block.data).flatten ++ current'.data =
        (blocks.map Block.data).flatten ++ current.data ++ (es.map recordOf).flatten
  | [], blocks, current, _, hb => ⟨blocks, current, rfl, hb, by simp⟩
  | (k, o, t, d) :: es, blocks, current, hfit, hb => by
    have hk : k.length + 17 ≤ blockSize := hfit _ (List.mem_cons_self _ _)
    have hes : FitsBlocks es := fun e he => hfit e (List.mem_cons_of_mem _ he)
    have hsize : k.length + 4 + 4 + 8 + 1 = k.length + 17 := rfl
    by_cases hfull : current.isFull (k.length + 17) = true
    · have hcur : current.entries ≠ [] := fun h => by
        simp only [Block.isFull, Block.data_eq_nil.mpr h, List.length_nil, Nat.zero_add,
          decide_eq_true_eq] at hfull
        omega
      have hnew : Block.new.isFull (k.length + 17) = false := by
        simp [Block.isFull]; omega
      obtain ⟨bs, c, h, hbs, hdata⟩ := fillBlocks_ok es (blocks ++ [current])
        ⟨[] ++ [⟨k.length % 2 ^ 32, k, o % 2 ^ 32, t, d⟩]⟩ hes (by
          simpa [or_imp, forall_and] using ⟨hb, hcur⟩)
      refine ⟨bs, c, ?_, hbs, ?_⟩
      · simp only [fillBlocks, hsize, hfull, if_true]
        rw [setEntry_ok hnew]
        exact h
      · rw [hdata]
        simp [Block.data, recordOf, BlockEntry.encode]
    · simp only [Bool.not_eq_true] at hfull
      obtain ⟨bs, c, h, hbs, hdata⟩ := fillBlocks_ok es blocks
        ⟨current.entries ++ [⟨k.length % 2 ^ 32, k, o % 2 ^ 32, t, d⟩]⟩ hes hb
      refine ⟨bs, c, ?_, hbs, ?_⟩
      · simp only [fillBlocks, hsize, hfull, Bool.false_eq_true, ↓reduceIte]
        rw [setEntry_ok hfull]
        exact h
      · rw [hdata]
        simp [recordOf, BlockEntry.encode]

theorem fillBlocks_oversized {k : Key} (v : EntryValue) (es : List (Key × EntryValue))
    (blocks : List Block) (current : Block) (hk : blockSize < k.length + 17) :
    fillBlocks ((k, v) :: es) blocks current = .error .blockIsFull := by
  have hfull : current.isFull (k.length + 17) = true := by simp [Block.isFull]; omega
  have hnew : Block.new.isFull (k.length + 17) = true := by simp [Block.isFull]; omega
  obtain ⟨o, t, d⟩ := v
  simp only [fillBlocks, show k.length + 4 + 4 + 8 + 1 = k.length + 17 from rfl, hfull, if_true,
    Block.setEntry, hnew]

theorem fillBlocks_of_not_fits : ∀ {es : List (Key × EntryValue)} (blocks : List Block)
    (current : Block), ¬ FitsBlocks es → fillBlocks es blocks current = .error .blockIsFull
  | [], _, _, h => absurd (fun _ he => by cases he) h
  | (k, o, t, d) :: es, blocks, current, h => by
    by_cases hk : k.length + 17 ≤ blockSize
    · have hes : ¬ FitsBlocks es := fun hf => h fun e he => by
        rcases List.mem_cons.mp he with rfl | he
        exacts [hk, hf e he]
      have hsize : k.length + 4 + 4 + 8 + 1 = k.length + 17 := rfl
      by_cases hfull : current.isFull (k.length + 17) = true
      · have hnew : Block.new.isFull (k.length + 17) = false := by simp [Block.isFull]; omega
        simp only [fillBlocks, hsize, hfull, if_true]
        rw [setEntry_ok hnew]
        exact fillBlocks_of_not_fits _ _ hes
      · simp only [Bool.not_eq_true] at hfull
        simp only [fillBlocks, hsize, hfull, Bool.false_eq_true, ↓reduceIte]
        rw [setEntry_ok hfull]
        exact fillBlocks_of_not_fits _ _ hes
    · exact fillBlocks_oversized _ _ _ _ (by omega)

theorem writeBlock_ok (t : SSTable) (e : BlockEntry) (es : List BlockEntry) (si : SparseIndex)
    {fs : Fs} {c : Bytes} (hc : fs.files t.dataFilePath = some c) :
    t.writeBlock ⟨e :: es⟩ si ⟨fs, []⟩ =
      .ok (si.insert e.keyPrefix e.key (c.length % 2 ^ 32))
        ⟨fs.append t.dataFilePath (Block.data ⟨e :: es⟩), []⟩ := by
  simp [writeBlock, Block.getFirstEntry, Block.writeToFile, metadataLen, hc, bind, EStateM.bind,
    pure, EStateM.pure]

theorem writeBlocks_ok (t : SSTable) : ∀ (bs : List Block) (si : SparseIndex) {fs : Fs} {c : Bytes},
    fs.files t.dataFilePath = some c → (∀ b ∈ bs, b.entries ≠ []) →
    ∃ si', si'.filePath = si.filePath ∧ t.writeBlocks bs si ⟨fs, []⟩ =
      .ok si' ⟨fs.append t.dataFilePath (bs.map Block.data).flatten, []⟩
  | [], si, fs, _, hc, _ => ⟨si, rfl, by simp [writeBlocks, Fs.append_nil hc, pure, EStateM.pure]⟩
  | ⟨[]⟩ :: _, _, _, _, _, hb => absurd rfl (hb _ (List.mem_cons_self _ _))
  | ⟨e :: es⟩ :: bs, si, fs, c, hc, hb => by
    have hc' : (fs.append t.dataFilePath (Block.data ⟨e :: es⟩)).files t.dataFilePath =
        some (c ++ Block.data ⟨e :: es⟩) := by simp [Fs.append_files, hc]
    obtain ⟨si', hsi, h⟩ := writeBlocks_ok t bs (si.insert e.keyPrefix e.key (c.length % 2 ^ 32)) hc'
      (fun b hb' => hb b (List.mem_cons_of_mem _ hb'))
    refine ⟨si', hsi, ?_⟩
    simp only [writeBlocks, bind, EStateM.bind, writeBlock_ok t e es si hc, h, Fs.append_append,
      List.map_cons, List.flatten_cons]

theorem writeToFile_ok (t : SSTable) {fs : Fs} {c : Bytes} (hc : fs.files t.dataFilePath = some c)
    (hfit : FitsBlocks t.entries.toList) :
    ∃ ix, t.writeToFile ⟨fs, []⟩ =
      .ok () ⟨(fs.append t.dataFilePath (dataBytes t.entries)).append t.indexFilePath ix, []⟩ := by
  obtain ⟨blocks, current, hfill, hne, hdata⟩ := fillBlocks_ok _ [] Block.new hfit (by simp)
  simp only [List.map_nil, List.flatten_nil, Block.data_new, List.append_nil, List.nil_append]
    at hdata
  obtain ⟨si, hsi, hw⟩ := writeBlocks_ok t blocks (SparseIndex.new t.indexFilePath) hc hne
  have hc' : (fs.append t.dataFilePath (blocks.map Block.data).flatten).files t.dataFilePath =
      some (c ++ (blocks.map Block.data).flatten) := by simp [Fs.append_files, hc]
  rcases current with ⟨_ | ⟨e, es⟩⟩
  · simp only [Block.data, List.map_nil, List.flatten_nil, List.append_nil] at hdata
    simp only [SSTable.writeToFile, bind, EStateM.bind, MonadExcept.ofExcept, hfill, hw, Block.data,
      List.map_nil, List.flatten_nil, List.length_nil, Nat.lt_irrefl, ↓reduceIte, pure,
      EStateM.pure, SparseIndex.writeToFile, Io.writeAll_ok, dataBytes, ← hdata, hsi]
    exact ⟨_, rfl⟩
  · have hpos : 0 < (Block.data ⟨e :: es⟩).length :=
      List.length_pos.mpr (mt Block.data_eq_nil.mp (List.cons_ne_nil _ _))
    simp only [SSTable.writeToFile, bind, EStateM.bind, MonadExcept.ofExcept, hfill, hw, pure,
      EStateM.pure, hpos, ↓reduceIte, writeBlock_ok t e es si hc', SparseIndex.writeToFile,
      Io.writeAll_ok, Fs.append_append, dataBytes, ← hdata, SparseIndex.insert_filePath, hsi]
    exact ⟨_, rfl⟩

theorem writeToFile_of_fillBlocks_error {t : SSTable} {e : StorageEngineError}
    (h : fillBlocks t.entries.toList [] Block.new = .error e) (w : World) :
    t.writeToFile w = .error e w := by
  simp only [writeToFile, bind, EStateM.bind, MonadExcept.ofExcept, h]
  rfl

theorem writeToFile_cases (t : SSTable) {fs : Fs} {c : Bytes} (hc : fs.files t.dataFilePath = some c) :
    (FitsBlocks t.entries.toList ∧ ∃ ix, t.writeToFile ⟨fs, []⟩ =
      .ok () ⟨(fs.append t.dataFilePath (dataBytes t.entries)).append t.indexFilePath ix, []⟩) ∨
    (¬ FitsBlocks t.entries.toList ∧ t.writeToFile ⟨fs, []⟩ = .error .blockIsFull ⟨fs, []⟩) := by
  by_cases h : FitsBlocks t.entries.toList
  · exact .inl ⟨h, writeToFile_ok t hc h⟩
  · exact .inr ⟨h, writeToFile_of_fillBlocks_error (fillBlocks_of_not_fits _ _ h) _⟩

end SSTable
end Velarix
