import Velarix.SSTable.Write

/-! The decode loop of `SSTable::from_file`, and the round trip from `write_to_file`. -/
namespace Velarix
open Io

namespace SSTable

/-- One pass of the decode loop (`from_file`, `get` and `range` run the same five reads):
`none` at a clean end of file, else the entry and the unread rest. -/
def readEntry (rest : Bytes) : Except StorageEngineError (Option ((Key × EntryValue) × Bytes)) :=
  let (keyLenBytes, rest) := fileRead 4 rest
  if keyLenBytes.length = 0 then .ok none else
  let keyLen := ofLe (pad 4 keyLenBytes)
  let (key, rest) := fileRead keyLen rest
  if key.length = 0 then .error .unexpectedEOF else
  let (valOffsetBytes, rest) := fileRead 4 rest
  if valOffsetBytes.length = 0 then .error .unexpectedEOF else
  let (createdAtBytes, rest) := fileRead 8 rest
  if createdAtBytes.length = 0 then .error .unexpectedEOF else
  let (isTombstoneByte, rest) := fileRead 1 rest
  if isTombstoneByte.length = 0 then .error .unexpectedEOF else
  .ok (some ((pad keyLen key, ofLe (pad 4 valOffsetBytes),
    UInt64.ofNat (ofLe (pad 8 createdAtBytes)), (pad 1 isTombstoneByte).headD 0 == 1), rest))

/-- The `from_file` loop, inserting each entry read into the map it rebuilds. Each pass reads
at least one byte, so `fuel` above the file's length is never exhausted. -/
def decodeEntries : Nat → Bytes → SkipMap EntryValue →
    Except StorageEngineError (SkipMap EntryValue)
  | 0, _, entries => .ok entries
  | fuel + 1, rest, entries =>
    match readEntry rest with
    | .error e => .error e
    | .ok none => .ok entries
    | .ok (some ((key, value), rest)) => decodeEntries fuel rest (entries.insert key value)

/-- `SSTable::from_file`; `now` is the clock reading it stamps the table with. -/
def fromFile (dir dataFilePath indexFilePath : Path) (now : Nat) : Io (Option SSTable) := do
  if !(← fileExists dataFilePath) then return none
  openRead dataFilePath
  openRead indexFilePath
  let bytes ← readFile dataFilePath
  let entries ← MonadExcept.ofExcept (decodeEntries (bytes.length + 1) bytes SkipMap.empty)
  let size ← metadataLen dataFilePath
  pure (some ⟨dataFilePath, indexFilePath, dir, entries, now, size⟩)

/-- `SSTable::get_value_from_entries`: the lookup in the entries held in memory. -/
def getValueFromEntries (t : SSTable) (key : Key) : Option EntryValue := t.entries.get key

/-- The loop of `SSTable::get`: the first record whose key is `searchedKey` answers, a clean end
of file answers `None`. -/
def searchEntries : Nat → Bytes → Key → Except StorageEngineError (Option EntryValue)
  | 0, _, _ => .ok none
  | fuel + 1, rest, searchedKey =>
    match readEntry rest with
    | .error e => .error e
    | .ok none => .ok none
    | .ok (some ((key, value), rest)) =>
      if key = searchedKey then .ok (some value) else searchEntries fuel rest searchedKey

/-- `SSTable::get`: seek to `start_offset`, then read records until the key or the end. -/
def get (t : SSTable) (startOffset : Nat) (searchedKey : Key) : Io (Option EntryValue) := do
  let bytes ← readFile t.dataFilePath
  MonadExcept.ofExcept (searchEntries (bytes.length + 1) (bytes.drop startOffset) searchedKey)

/-- The loop of `SSTable::range`. `totalBytesRead` starts at the start offset and adds what each
of a pass's five reads returned; the entry is pushed, and the loop stops once that count, cast
to `u32`, has reached `endOffset`. -/
def rangeEntries : Nat → Bytes → Nat → Nat → List (Key × EntryValue) →
    Except StorageEngineError (List (Key × EntryValue))
  | 0, _, _, _, entries => .ok entries
  | fuel + 1, rest, totalBytesRead, endOffset, entries =>
    match readEntry rest with
    | .error e => .error e
    | .ok none => .ok entries
    | .ok (some (entry, rest')) =>
      let totalBytesRead := totalBytesRead + (rest.length - rest'.length)
      let entries := entries ++ [entry]
      if endOffset ≤ totalBytesRead % 2 ^ 32 then .ok entries
      else rangeEntries fuel rest' totalBytesRead endOffset entries

/-- `SSTable::range` over `RangeOffset { start_offset, end_offset }`. -/
def range (t : SSTable) (startOffset endOffset : Nat) : Io (List (Key × EntryValue)) := do
  let bytes ← readFile t.dataFilePath
  MonadExcept.ofExcept
    (rangeEntries (bytes.length + 1) (bytes.drop startOffset) startOffset endOffset [])

/-- What `from_file` rebuilds from a record: the value offset comes back as its low 32 bits. -/
def readBack (e : Key × EntryValue) : Key × EntryValue := (e.1, e.2.1 % 2 ^ 32, e.2.2)

theorem readEntry_record (k : Key) (v : EntryValue) (rest : Bytes) (hne : k ≠ [])
    (hlen : k.length < 2 ^ 32) :
    readEntry (recordOf (k, v) ++ rest) = .ok (some (readBack (k, v), rest)) := by
  obtain ⟨o, t, d⟩ := v
  have hk : k.length ≠ 0 := fun h => hne (List.eq_nil_of_length_eq_zero h)
  have hkey : ofLe (leBytes 4 (k.length % 2 ^ 32)) = k.length := by
    rw [ofLe_leBytes]; omega
  have ht : UInt64.ofNat (ofLe (leBytes 8 t.toNat)) = t := by
    have := t.toNat_lt_size
    rw [ofLe_leBytes, Nat.mod_eq_of_lt (by simpa [UInt64.size] using this)]
    exact UInt64.toNat.inj (UInt64.toNat_ofNat_of_lt this)
  have ho : ofLe (leBytes 4 (o % 2 ^ 32)) = o % 2 ^ 32 := by
    rw [ofLe_leBytes]; omega
  simp only [recordOf, encodeEntry, List.append_assoc]
  unfold readEntry
  rw [fileRead_append _ (length_leBytes 4 _)]
  dsimp only
  rw [if_neg (by simp), pad_of_length (length_leBytes 4 _), hkey, fileRead_append _ rfl]
  dsimp only
  rw [if_neg hk, fileRead_append _ (length_leBytes 4 _)]
  dsimp only
  rw [if_neg (by simp), fileRead_append _ (length_leBytes 8 _)]
  dsimp only
  rw [if_neg (by simp), fileRead_append (n := 1) (a := [if d then 1 else 0]) _ rfl]
  dsimp only
  rw [if_neg (by simp), pad_of_length rfl, pad_of_length (length_leBytes 4 _), ho,
    pad_of_length (length_leBytes 8 _), ht]
  cases d <;> rfl

theorem readEntry_nil : readEntry [] = .ok none := rfl

theorem decodeEntries_records : ∀ (l : List (Key × EntryValue)) (fuel : Nat) (rest : Bytes)
    (m : SkipMap EntryValue), (∀ e ∈ l, e.1 ≠ [] ∧ e.1.length < 2 ^ 32) →
    decodeEntries (fuel + l.length) ((l.map recordOf).flatten ++ rest) m =
      decodeEntries fuel rest (l.foldl (fun m e => m.insert (readBack e).1 (readBack e).2) m)
  | [], fuel, rest, m, _ => rfl
  | (k, v) :: l, fuel, rest, m, h => by
    have hk := h (k, v) (List.mem_cons_self _ _)
    rw [List.length_cons, ← Nat.add_assoc, decodeEntries, List.map_cons, List.flatten_cons,
      List.append_assoc, readEntry_record k v _ hk.1 hk.2]
    exact decodeEntries_records l fuel rest _ (fun e he => h e (List.mem_cons_of_mem _ he))

/-- The map `from_file` rebuilds from a table: every value offset cut to its low 32 bits. -/
def truncateOffsets (m : SkipMap EntryValue) : SkipMap EntryValue :=
  ⟨m.toList.map readBack, List.pairwise_map.mpr m.ascending⟩

theorem foldl_insert_toList (l : List (Key × EntryValue)) (m : SkipMap EntryValue) :
    (l.foldl (fun m e => m.insert e.1 e.2) m).toList =
      l.foldl (fun acc e => SkipMap.insertList e.1 e.2 acc) m.toList := by
  induction l generalizing m with
  | nil => rfl
  | cons e l ih => exact ih _

theorem decodeEntries_dataBytes (m : SkipMap EntryValue) (fuel : Nat)
    (h : ∀ e ∈ m.toList, e.1 ≠ [] ∧ e.1.length < 2 ^ 32) :
    decodeEntries (fuel + 1 + m.toList.length) (dataBytes m) SkipMap.empty = .ok (truncateOffsets m) := by
  have hd := decodeEntries_records m.toList (fuel + 1) [] SkipMap.empty h
  rw [List.append_nil] at hd
  rw [dataBytes, hd, decodeEntries, readEntry_nil]
  refine congrArg Except.ok (SkipMap.ext ?_)
  have hfold := foldl_insert_toList (m.toList.map readBack) SkipMap.empty
  rw [List.foldl_map] at hfold
  rw [hfold, truncateOffsets]
  exact SkipMap.foldl_insertList (List.pairwise_map.mpr m.ascending)

theorem searchEntries_records (k : Key) : ∀ (l : List (Key × EntryValue)) (fuel : Nat) (rest : Bytes),
    (∀ e ∈ l, e.1 ≠ [] ∧ e.1.length < 2 ^ 32) →
    searchEntries (fuel + l.length) ((l.map recordOf).flatten ++ rest) k =
      (((l.map readBack).find? fun e => e.1 = k).map Prod.snd).elim (searchEntries fuel rest k)
        fun v => .ok (some v)
  | [], fuel, rest, _ => rfl
  | (k', v) :: l, fuel, rest, h => by
    have hk := h (k', v) (List.mem_cons_self _ _)
    rw [List.length_cons, ← Nat.add_assoc, searchEntries, List.map_cons, List.flatten_cons,
      List.append_assoc, readEntry_record k' v _ hk.1 hk.2]
    by_cases hkk : k' = k
    · simp [readBack, hkk]
    · simp only [readBack, hkk, if_false, List.map_cons, List.find?_cons, decide_False]
      exact searchEntries_records k l fuel rest (fun e he => h e (List.mem_cons_of_mem _ he))

theorem searchEntries_dataBytes (m : SkipMap EntryValue) (fuel : Nat) (k : Key)
    (h : ∀ e ∈ m.toList, e.1 ≠ [] ∧ e.1.length < 2 ^ 32) :
    searchEntries (fuel + 1 + m.toList.length) (dataBytes m) k = .ok ((truncateOffsets m).get k) := by
  have hs := searchEntries_records k m.toList (fuel + 1) [] h
  rw [List.append_nil] at hs
  rw [dataBytes, hs, SkipMap.get, truncateOffsets]
  cases ((m.toList.map readBack).find? fun e => e.1 = k) <;> rfl

theorem length_le_dataBytes (m : SkipMap EntryValue) : m.toList.length ≤ (dataBytes m).length := by
  rw [dataBytes, List.length_flatten, List.map_map]
  induction m.toList with
  | nil => simp
  | cons e l ih => simp [recordOf] at ih ⊢; omega

theorem get_ok (t : SSTable) (k : Key) {m : SkipMap EntryValue} {w : World}
    (hd : w.fs.files t.dataFilePath = some (dataBytes m))
    (h : ∀ e ∈ m.toList, e.1 ≠ [] ∧ e.1.length < 2 ^ 32) :
    t.get 0 k w = .ok ((truncateOffsets m).get k) w := by
  obtain ⟨f, hf⟩ : ∃ f, (dataBytes m).length + 1 = f + 1 + m.toList.length :=
    ⟨(dataBytes m).length - m.toList.length, by have := length_le_dataBytes m; omega⟩
  simp only [get, bind, EStateM.bind, readFile, hd, Option.getD_some, List.drop_zero, hf,
    searchEntries_dataBytes m f k h]
  rfl

theorem fromFile_ok (dir : Path) (now : Nat) {fs : Fs} {faults : List (Option Nat)} {data index : Path}
    {bytes : Bytes} {m : SkipMap EntryValue} (hd : fs.files data = some bytes)
    (hi : (fs.files index).isSome) (hdec : decodeEntries (bytes.length + 1) bytes SkipMap.empty = .ok m) :
    fromFile dir data index now ⟨fs, faults⟩ =
      .ok (some ⟨data, index, dir, m, now, bytes.length⟩) ⟨fs, faults⟩ := by
  simp [fromFile, bind, EStateM.bind, fileExists, openRead, readFile, metadataLen,
    MonadExcept.ofExcept, hd, hi, hdec, pure, EStateM.pure]

/-- Build a table from `entries` in a new file pair under `dir`, then reopen it as engine open
does. -/
def writeThenRecover (dir : Path) (now now' : Nat) (entries : SkipMap EntryValue) :
    Io (Option SSTable) := do
  let t ← SSTable.new dir true now
  (t.setEntries entries).writeToFile
  fromFile dir t.dataFilePath t.indexFilePath now'

theorem writeThenRecover_ok (dir : Path) (now now' : Nat) (E : SkipMap EntryValue) (fs : Fs)
    (fresh : fs.files (dir.join (.sstable now)) = none)
    (hkeys : ∀ e ∈ E.toList, e.1 ≠ [] ∧ e.1.length + 17 ≤ blockSize) :
    ∃ t w, writeThenRecover dir now now' E ⟨fs, []⟩ = .ok (some t) w ∧
      t.entries = truncateOffsets E ∧ w.fs.files t.dataFilePath = some (dataBytes E) := by
  have hdi : dir.join (.sstable now) ≠ dir.join (.index now) := by simp
  let fs₁ := ((if fs.dirs dir || (fs.files dir).isSome then fs else fs.addDir dir).touch
    (dir.join (.sstable now))).touch (dir.join (.index now))
  have h₁ : fs₁.files (dir.join (.sstable now)) = some [] := by
    by_cases h : fs.dirs dir || (fs.files dir).isSome <;>
      simp [fs₁, h, Fs.touch_files, hdi, fresh]
  obtain ⟨ix, hw⟩ := writeToFile_ok
    ((⟨dir.join (.sstable now), dir.join (.index now), dir, SkipMap.empty, now, 0⟩ : SSTable).setEntries E)
    h₁ (fun e he => (hkeys e he).2)
  obtain ⟨f, hf⟩ : ∃ f, (dataBytes E).length + 1 = f + 1 + E.toList.length :=
    ⟨(dataBytes E).length - E.toList.length, by have := length_le_dataBytes E; omega⟩
  have hdec := decodeEntries_dataBytes E f (fun e he => ⟨(hkeys e he).1, by
    have := (hkeys e he).2; simp only [blockSize] at this; omega⟩)
  rw [← hf] at hdec
  refine ⟨⟨dir.join (.sstable now), dir.join (.index now), dir, truncateOffsets E, now',
    (dataBytes E).length⟩,
    ⟨(fs₁.append (dir.join (.sstable now)) (dataBytes E)).append (dir.join (.index now)) ix, []⟩, ?_, rfl,
    by simp [Fs.append_files, hdi, h₁]⟩
  simp only [writeThenRecover, bind, EStateM.bind, new_ok]
  erw [hw]
  exact fromFile_ok dir now' (by simp [Fs.append_files, hdi, h₁]) (by simp [Fs.append_files]) hdec

theorem truncateOffsets_of_lt {m : SkipMap EntryValue} (h : ∀ e ∈ m.toList, e.2.1 < 2 ^ 32) :
    truncateOffsets m = m := by
  apply SkipMap.ext
  conv_rhs => rw [← List.map_id m.toList]
  exact List.map_congr_left fun e he => by rw [readBack, Nat.mod_eq_of_lt (h e he)]; rfl

/-- An SSTable written by `write_to_file` into a fresh data file and reopened by `from_file`
comes back entry for entry, when its keys are non-empty and each record fits one block. -/
theorem writeThenRecover_returns_entries (dir : Path) (now now' : Nat) (E : SkipMap EntryValue)
    (fs : Fs) (fresh : fs.files (dir.join (.sstable now)) = none)
    (hkeys : ∀ e ∈ E.toList, e.1 ≠ [] ∧ e.1.length + 17 ≤ blockSize)
    (hoffsets : ∀ e ∈ E.toList, e.2.1 < 2 ^ 32) :
    ∃ t w, writeThenRecover dir now now' E ⟨fs, []⟩ = .ok (some t) w ∧ t.entries = E := by
  obtain ⟨t, w, h, ht, -⟩ := writeThenRecover_ok dir now now' E fs fresh hkeys
  exact ⟨t, w, h, ht.trans (truncateOffsets_of_lt hoffsets)⟩

/-- A one-entry table with key `[7]`. -/
def singleEntry : SkipMap EntryValue := ⟨[([7], 5, 9, true)], List.pairwise_singleton _ _⟩

theorem writeThenRecover_returns_single_entry :
    Fs.empty.files ((Path.root.join (.named "db")).join (.sstable 0)) = none ∧
      (∀ e ∈ singleEntry.toList, e.1 ≠ [] ∧ e.1.length + 17 ≤ blockSize) ∧
      (∀ e ∈ singleEntry.toList, e.2.1 < 2 ^ 32) ∧
      ∃ t w, writeThenRecover (Path.root.join (.named "db")) 0 1 singleEntry ⟨Fs.empty, []⟩ =
        .ok (some t) w ∧ t.entries = singleEntry :=
  have h₁ : Fs.empty.files ((Path.root.join (.named "db")).join (.sstable 0)) = none := rfl
  have h₂ : ∀ e ∈ singleEntry.toList, e.1 ≠ [] ∧ e.1.length + 17 ≤ blockSize := by
    simp [singleEntry, blockSize]
  have h₃ : ∀ e ∈ singleEntry.toList, e.2.1 < 2 ^ 32 := by simp [singleEntry]
  ⟨h₁, h₂, h₃, writeThenRecover_returns_entries _ 0 1 singleEntry Fs.empty h₁ h₂ h₃⟩

theorem writeThenRecover_of_fillBlocks_error {E : SkipMap EntryValue} {e : StorageEngineError}
    (h : fillBlocks E.toList [] Block.new = .error e) (dir : Path) (now now' : Nat) (w : World) :
    ∃ w', writeThenRecover dir now now' E w = .error e w' := by
  simp only [writeThenRecover, bind, EStateM.bind, new_ok]
  rw [writeToFile_of_fillBlocks_error (by exact h)]
  exact ⟨_, rfl⟩

/-- A table whose one record is a byte longer than a block. -/
def oversizedEntry : SkipMap EntryValue :=
  ⟨[(List.replicate (blockSize - 16) 0, 0, 0, false)], List.pairwise_singleton _ _⟩

theorem writeThenRecover_refuses_oversized_record :
    ¬ ∃ t w, writeThenRecover (Path.root.join (.named "db")) 0 1 oversizedEntry ⟨Fs.empty, []⟩ =
      .ok (some t) w ∧ t.entries = oversizedEntry := by
  have hfill : fillBlocks oversizedEntry.toList [] Block.new = .error .blockIsFull :=
    fillBlocks_oversized _ _ _ _ (by rw [List.length_replicate]; decide)
  obtain ⟨w', hw⟩ := writeThenRecover_of_fillBlocks_error hfill (Path.root.join (.named "db")) 0 1
    ⟨Fs.empty, []⟩
  rintro ⟨t, w, h, -⟩
  rw [hw] at h
  cases h

end SSTable
end Velarix