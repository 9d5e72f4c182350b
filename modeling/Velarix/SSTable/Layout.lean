import Velarix.SSTable.Read

/-! What a successful `write_to_file` lays out: the blocks, the sparse index, and the size
`set_sst_size_from_entries` counts. -/
namespace Velarix
set_option autoImplicit false
open Io

/-- One sparse-index record as `SparseIndex::write_to_file` writes it. -/
def indexRecord : Nat × Key × Nat → Bytes
  | (keyPrefix, key, offset) => leBytes 4 keyPrefix ++ key ++ leBytes 4 offset

theorem SparseIndex.writeToFile_eq (si : SparseIndex) :
    si.writeToFile = writeAll si.filePath (si.entries.map indexRecord).flatten := rfl

theorem writeAll_eq_ok {p : Path} {b : Bytes} {w w' : World} {u : Unit}
    (h : writeAll p b w = .ok u w') : w'.fs = w.fs.append p b := by
  unfold writeAll at h
  split at h <;> cases h
  rfl

namespace SSTable

/-- The entry `set_entry` receives for a table entry, after the `as u32` casts. -/
def blockEntryOf (e : Key × EntryValue) : BlockEntry :=
  ⟨e.1.length % 2 ^ 32, e.1, e.2.1 % 2 ^ 32, e.2.2.1, e.2.2.2⟩

@[simp] theorem encode_blockEntryOf (e : Key × EntryValue) : (blockEntryOf e).encode = recordOf e :=
  rfl

/-- The sparse-index records `write_block` adds for `blocks` written one after another into a
data file `start` bytes long: each block's first key, and the file's length before the block,
as `u32`. -/
def indexRecords (start : Nat) : List Block → List (Nat × Key × Nat)
  | [] => []
  | b :: bs =>
    match b.getFirstEntry with
    | some e => (e.keyPrefix, e.key, start % 2 ^ 32) :: indexRecords (start + b.data.length) bs
    | none => indexRecords (start + b.data.length) bs

/-- The table `SSTable::new(dir, true)` returns at clock reading `now`, before `set_entries`. -/
def emptyTable (dir : Path) (now : Nat) : SSTable :=
  ⟨dir.join (.sstable now), dir.join (.index now), dir, SkipMap.empty, now, 0⟩

/-- A directory for tables written in examples. -/
def dataDir : Path := Path.root.join (.named "data")

/-- Two entries, under keys `[1]` and `[2]`. -/
def twoEntries : SkipMap EntryValue :=
  ⟨[([1], 0, 0, false), ([2], 18, 0, false)], by unfold Ascending; decide⟩

/-- The table `SSTable::new(data, true)` gives at clock reading 0, set to `twoEntries`. -/
def twoEntryTable : SSTable := (emptyTable dataDir 0).setEntries twoEntries

/-- The disk `SSTable::new(data, true)` leaves at clock reading 0 on an empty one. -/
def freshFiles : Fs := (Fs.empty.touch (dataDir.join (.sstable 0))).touch (dataDir.join (.index 0))

theorem writeBlock_eq_ok {t : SSTable} {b : Block} {si si' : SparseIndex} {w w' : World}
    (h : t.writeBlock b si w = .ok si' w') :
    ∃ e es c, b = ⟨e :: es⟩ ∧ w.fs.files t.dataFilePath = some c ∧
      si' = si.insert e.keyPrefix e.key (c.length % 2 ^ 32) ∧
      w'.fs = w.fs.append t.dataFilePath b.data := by
  obtain ⟨n, w₁, hn, h⟩ := bind_eq_ok h
  unfold metadataLen at hn
  split at hn
  next c hc =>
    cases hn
    rcases b with ⟨_ | ⟨e, es⟩⟩
    · cases h
    obtain ⟨u, w₂, hw, h⟩ := bind_eq_ok h
    obtain ⟨rfl, rfl⟩ := pure_eq_ok h
    exact ⟨e, es, c, rfl, hc, rfl, writeAll_eq_ok hw⟩
  · cases hn

theorem writeBlocks_eq_ok (t : SSTable) : ∀ {bs : List Block} {si si' : SparseIndex} {w w' : World}
    {c : Bytes}, w.fs.files t.dataFilePath = some c → t.writeBlocks bs si w = .ok si' w' →
    (∀ b ∈ bs, b.entries ≠ []) ∧ si'.filePath = si.filePath ∧
      si'.entries = si.entries ++ indexRecords c.length bs ∧
      w'.fs = w.fs.append t.dataFilePath (bs.map Block.data).flatten
  | [], si, si', w, w', c, hc, h => by
    obtain ⟨rfl, rfl⟩ := pure_eq_ok h
    exact ⟨by simp, rfl, by simp [indexRecords], by simp [Fs.append_nil hc]⟩
  | b :: bs, si, si', w, w', c, hc, h => by
    obtain ⟨si₁, w₁, hb, h⟩ := bind_eq_ok h
    obtain ⟨e, es, c', rfl, hc', rfl, hw₁⟩ := writeBlock_eq_ok hb
    rw [hc] at hc'
    cases hc'
    have hc₁ : w₁.fs.files t.dataFilePath = some (c ++ Block.data ⟨e :: es⟩) := by
      simp [hw₁, Fs.append_files, hc]
    obtain ⟨hne, hpath, hentries, hfs⟩ := writeBlocks_eq_ok t hc₁ h
    refine ⟨List.forall_mem_cons.mpr ⟨List.cons_ne_nil _ _, hne⟩, hpath, ?_, ?_⟩
    · simp [hentries, SparseIndex.insert, indexRecords, Block.getFirstEntry]
    · rw [hfs, hw₁, Fs.append_append]
      rfl

private theorem setEntry_eq_ok {b b' : Block} {kp : Nat} {k : Key} {o : Nat} {t : UInt64} {d : Bool}
    (h : b.setEntry kp k o t d = .ok b') :
    b.isFull (k.length + 17) = false ∧ b' = ⟨b.entries ++ [⟨kp, k, o, t, d⟩]⟩ := by
  unfold Block.setEntry at h
  split at h
  · cases h
  next hn =>
    cases h
    exact ⟨by simpa using hn, rfl⟩

theorem fillBlocks_eq_ok : ∀ {es : List (Key × EntryValue)} {blocks blocks' : List Block}
    {current current' : Block}, fillBlocks es blocks current = .ok (blocks', current') →
    (∀ b ∈ blocks, b.entries ≠ []) → (∀ b ∈ blocks', b.entries ≠ []) ∧
      (blocks'.map Block.entries).flatten ++ current'.entries =
        (blocks.map Block.entries).flatten ++ current.entries ++ es.map blockEntryOf
  | [], blocks, blocks', current, current', h, hb => by
    cases h
    exact ⟨hb, by simp⟩
  | (k, o, t, d) :: es, blocks, blocks', current, current', h, hb => by
    simp only [fillBlocks, show k.length + 4 + 4 + 8 + 1 = k.length + 17 from rfl] at h
    by_cases hfull : current.isFull (k.length + 17) = true
    · rw [if_pos hfull] at h
      split at h
      · cases h
      next nb hs =>
        obtain ⟨hnew, rfl⟩ := setEntry_eq_ok hs
        have hcur : current.entries ≠ [] := fun he => by
          simp only [Block.isFull, Block.data_eq_nil.mpr he, Block.data_new, List.length_nil,
            decide_eq_true_eq, decide_eq_false_iff_not] at hfull hnew
          exact hnew hfull
        obtain ⟨hb', heq⟩ := fillBlocks_eq_ok h
          (List.forall_mem_append.mpr ⟨hb, List.forall_mem_singleton.mpr hcur⟩)
        exact ⟨hb', by simp [heq, Block.new, blockEntryOf]⟩
    · rw [if_neg hfull] at h
      split at h
      · cases h
      next nb hs =>
        obtain ⟨-, rfl⟩ := setEntry_eq_ok hs
        obtain ⟨hb', heq⟩ := fillBlocks_eq_ok h hb
        exact ⟨hb', by simp [heq, blockEntryOf]⟩

theorem indexRecords_append : ∀ (start : Nat) (xs ys : List Block),
    indexRecords start (xs ++ ys) =
      indexRecords start xs ++ indexRecords (start + ((xs.map Block.data).flatten).length) ys
  | _, [], _ => by simp [indexRecords]
  | start, x :: xs, ys => by
    have ih := indexRecords_append (start + x.data.length) xs ys
    rw [List.cons_append, indexRecords, indexRecords]
    split <;> simp only [ih, List.map_cons, List.flatten_cons, List.length_append, Nat.add_assoc,
      List.cons_append]

theorem writeToFile_eq_ok {t : SSTable} {w w' : World} {c : Bytes}
    (hc : w.fs.files t.dataFilePath = some c) (h : t.writeToFile w = .ok () w') :
    ∃ blocks : List Block, (∀ b ∈ blocks, b.entries ≠ []) ∧
      (blocks.map Block.entries).flatten = t.entries.toList.map blockEntryOf ∧
      w'.fs = (w.fs.append t.dataFilePath (blocks.map Block.data).flatten).append t.indexFilePath
        ((indexRecords c.length blocks).map indexRecord).flatten := by
  obtain ⟨⟨blocks, current⟩, w₁, hfill, h⟩ := bind_eq_ok h
  cases hf : fillBlocks t.entries.toList [] Block.new with
  | error e =>
    simp [MonadExcept.ofExcept, hf, throw, throwThe, MonadExceptOf.throw, EStateM.throw] at hfill
  | ok r =>
    simp only [MonadExcept.ofExcept, hf, pure, EStateM.pure, EStateM.Result.ok.injEq] at hfill
    obtain ⟨rfl, rfl⟩ := hfill
    obtain ⟨hne, hentries⟩ := fillBlocks_eq_ok hf (by simp)
    simp only [List.map_nil, List.flatten_nil, Block.new, List.append_nil, List.nil_append]
      at hentries
    obtain ⟨si₁, w₂, hbs, h⟩ := bind_eq_ok h
    obtain ⟨-, hpath₁, hsi₁, hfs₁⟩ := writeBlocks_eq_ok t hc hbs
    dsimp only at h
    split at h
    next hpos =>
      obtain ⟨si₂, w₃, hcur, h⟩ := bind_eq_ok h
      obtain ⟨e, es, c', rfl, hc', rfl, hfs₂⟩ := writeBlock_eq_ok hcur
      rw [hfs₁, Fs.append_files, if_pos rfl, hc, Option.getD_some, Option.some.injEq] at hc'
      subst hc'
      refine ⟨blocks ++ [⟨e :: es⟩], List.forall_mem_append.mpr
        ⟨hne, List.forall_mem_singleton.mpr (List.cons_ne_nil _ _)⟩, by simpa using hentries, ?_⟩
      rw [SparseIndex.writeToFile_eq] at h
      rw [writeAll_eq_ok h, hfs₂, hfs₁, Fs.append_append, SparseIndex.insert_filePath, hpath₁,
        indexRecords_append]
      simp [hsi₁, SparseIndex.insert, SparseIndex.new, indexRecords, Block.getFirstEntry]
    next hzero =>
      obtain ⟨si₂, w₃, hcur, h⟩ := bind_eq_ok h
      obtain ⟨rfl, rfl⟩ := pure_eq_ok hcur
      have hcur : current.entries = [] :=
        Block.data_eq_nil.mp (List.eq_nil_of_length_eq_zero (Nat.eq_zero_of_not_pos hzero))
      refine ⟨blocks, hne, by simpa [hcur] using hentries, ?_⟩
      rw [SparseIndex.writeToFile_eq] at h
      rw [writeAll_eq_ok h, hfs₁, hpath₁, hsi₁]
      rfl

theorem flatten_data_eq {bs : List Block} {es : List (Key × EntryValue)}
    (h : (bs.map Block.entries).flatten = es.map blockEntryOf) :
    (bs.map Block.data).flatten = (es.map recordOf).flatten := by
  have hdata : ∀ bs : List Block, (bs.map Block.data).flatten =
      ((bs.map Block.entries).flatten.map BlockEntry.encode).flatten := fun bs => by
    induction bs with
    | nil => rfl
    | cons b bs ih => simp [Block.data, ih]
  rw [hdata, h, List.map_map]
  rfl

theorem length_indexRecords : ∀ {bs : List Block} (start : Nat), (∀ b ∈ bs, b.entries ≠ []) →
    (indexRecords start bs).length = bs.length
  | [], _, _ => rfl
  | ⟨[]⟩ :: _, _, h => absurd rfl (h _ (List.mem_cons_self _ _))
  | ⟨e :: es⟩ :: bs, start, h => by
    simp [indexRecords, Block.getFirstEntry,
      length_indexRecords _ fun b hb => h b (List.mem_cons_of_mem _ hb)]

theorem getElem?_indexRecords {pre post : List Block} {e : BlockEntry} {es : List BlockEntry}
    (start : Nat) (h : ∀ b ∈ pre, b.entries ≠ []) :
    (indexRecords start (pre ++ ⟨e :: es⟩ :: post))[pre.length]? =
      some (e.keyPrefix, e.key, (start + ((pre.map Block.data).flatten).length) % 2 ^ 32) := by
  rw [indexRecords_append, ← length_indexRecords start h, List.getElem?_append_right (le_refl _),
    Nat.sub_self]
  simp [indexRecords, Block.getFirstEntry]

theorem offsets_indexRecords : ∀ {bs : List Block} (start : Nat), (∀ b ∈ bs, b.entries ≠ []) →
    start + ((bs.map Block.data).flatten).length ≤ 2 ^ 32 →
    (indexRecords start bs).Pairwise (fun r r' => r.2.2 < r'.2.2) ∧
      ∀ r ∈ indexRecords start bs, start ≤ r.2.2
  | [], _, _, _ => ⟨List.Pairwise.nil, by simp [indexRecords]⟩
  | ⟨[]⟩ :: _, _, h, _ => absurd rfl (h _ (List.mem_cons_self _ _))
  | ⟨e :: es⟩ :: bs, start, h, hlen => by
    have hpos : 0 < (Block.data ⟨e :: es⟩).length :=
      List.length_pos.mpr (mt Block.data_eq_nil.mp (List.cons_ne_nil _ _))
    simp only [List.map_cons, List.flatten_cons, List.length_append] at hlen
    obtain ⟨hpw, hge⟩ := offsets_indexRecords (start + (Block.data ⟨e :: es⟩).length)
      (fun b hb => h b (List.mem_cons_of_mem _ hb)) (by omega)
    have hmod : start % 2 ^ 32 = start := Nat.mod_eq_of_lt (by omega)
    simp only [indexRecords, Block.getFirstEntry, List.head?_cons, hmod, List.pairwise_cons,
      List.mem_cons, forall_eq_or_imp]
    exact ⟨⟨fun r hr => by have := hge r hr; omega, hpw⟩, le_refl _,
      fun r hr => by have := hge r hr; omega⟩

theorem mem_indexRecords : ∀ {bs : List Block} {es : List (Key × EntryValue)} (start : Nat),
    (bs.map Block.entries).flatten = es.map blockEntryOf →
    ∀ r ∈ indexRecords start bs, ∃ pre e post, es = pre ++ e :: post ∧
      r = (e.1.length % 2 ^ 32, e.1, (start + ((pre.map recordOf).flatten).length) % 2 ^ 32)
  | [], _, _, _, r, hr => by simp [indexRecords] at hr
  | b :: bs, es, start, h, r, hr => by
    rw [List.map_cons, List.flatten_cons] at h
    obtain ⟨es₁, es₂, rfl, h₁, h₂⟩ := List.map_eq_append_iff.mp h.symm
    have hdata : b.data = (es₁.map recordOf).flatten := by rw [Block.data, ← h₁, List.map_map]; rfl
    have hlater : r ∈ indexRecords (start + b.data.length) bs → ∃ pre e post,
        es₁ ++ es₂ = pre ++ e :: post ∧
        r = (e.1.length % 2 ^ 32, e.1, (start + ((pre.map recordOf).flatten).length) % 2 ^ 32) :=
      fun hr => by
        obtain ⟨pre, e, post, rfl, rfl⟩ := mem_indexRecords _ h₂.symm r hr
        exact ⟨es₁ ++ pre, e, post, (List.append_assoc _ _ _).symm, by simp [hdata, Nat.add_assoc]⟩
    unfold indexRecords at hr
    split at hr
    next e₀ he₀ =>
      rcases List.mem_cons.mp hr with rfl | hr
      · rw [Block.getFirstEntry, ← h₁] at he₀
        cases es₁ with
        | nil => cases he₀
        | cons e es₁ =>
          cases he₀
          exact ⟨[], e, es₁ ++ es₂, rfl, by simp [blockEntryOf]⟩
      · exact hlater hr
    next => exact hlater hr

theorem writeToFile_fresh_eq_ok {t : SSTable} {w w' : World}
    (hc : w.fs.files t.dataFilePath = some []) (hdi : t.dataFilePath ≠ t.indexFilePath)
    (hsize : (dataBytes t.entries).length < 2 ^ 32) (h : t.writeToFile w = .ok () w') :
    w'.fs.files t.dataFilePath = some (dataBytes t.entries) ∧
    ∃ records : List (Nat × Key × Nat),
      w'.fs.files t.indexFilePath =
        some ((w.fs.files t.indexFilePath).getD [] ++ (records.map indexRecord).flatten) ∧
      ∀ r ∈ records, ∃ pre e post, t.entries.toList = pre ++ e :: post ∧
        r.2 = (e.1, ((pre.map recordOf).flatten).length) := by
  obtain ⟨blocks, -, hentries, hfs⟩ := writeToFile_eq_ok hc h
  have hdata := flatten_data_eq hentries
  refine ⟨by simp [hfs, Fs.append_files, hdi, hc, hdata, dataBytes], indexRecords 0 blocks,
    by simp [hfs, Fs.append_files, Ne.symm hdi], fun r hr => ?_⟩
  obtain ⟨pre, e, post, hsplit, rfl⟩ := mem_indexRecords 0 hentries r hr
  have hle : ((pre.map recordOf).flatten).length ≤ (dataBytes t.entries).length := by
    simp [dataBytes, hsplit]
  exact ⟨pre, e, post, hsplit, by
    rw [Nat.zero_add, Nat.mod_eq_of_lt (show ((pre.map recordOf).flatten).length < 2 ^ 32 by omega)]⟩

/-- With every write succeeding and every record fitting a block, `write_to_file` into a data
file that stays below `2^32` bytes splits the table, in key order, into non-empty blocks and
writes each once, one after another; the sparse index gets one record per block, holding the
block's first key and the offset in the data file where the block's first record begins, and
these offsets strictly increase. -/
theorem writeToFile_indexes_each_block (t : SSTable) {fs : Fs} {c : Bytes}
    (hc : fs.files t.dataFilePath = some c) (hdi : t.dataFilePath ≠ t.indexFilePath)
    (hfit : FitsBlocks t.entries.toList)
    (hsize : c.length + (dataBytes t.entries).length < 2 ^ 32) :
    ∃ blocks w', t.writeToFile ⟨fs, []⟩ = .ok () w' ∧
      (∀ b ∈ blocks, b.entries ≠ []) ∧
      (blocks.map Block.entries).flatten = t.entries.toList.map blockEntryOf ∧
      w'.fs.files t.dataFilePath = some (c ++ (blocks.map Block.data).flatten) ∧
      w'.fs.files t.indexFilePath = some ((fs.files t.indexFilePath).getD [] ++
        ((indexRecords c.length blocks).map indexRecord).flatten) ∧
      (indexRecords c.length blocks).length = blocks.length ∧
      (∀ pre b post, blocks = pre ++ b :: post → ∃ e es, b.entries = e :: es ∧
        (indexRecords c.length blocks)[pre.length]? =
          some (e.keyPrefix, e.key, c.length + ((pre.map Block.data).flatten).length) ∧
        ∃ rest, (c ++ (blocks.map Block.data).flatten).drop
          (c.length + ((pre.map Block.data).flatten).length) = e.encode ++ rest) ∧
      (indexRecords c.length blocks).Pairwise fun r r' => r.2.2 < r'.2.2 := by
  obtain ⟨ix, h⟩ := writeToFile_ok t hc hfit
  obtain ⟨blocks, hne, hentries, hfs⟩ := writeToFile_eq_ok hc h
  have hdata : (blocks.map Block.data).flatten = dataBytes t.entries := flatten_data_eq hentries
  have hlen := congrArg List.length hdata
  dsimp only at hfs
  refine ⟨blocks, _, h, hne, hentries, ?_, ?_, length_indexRecords _ hne, ?_,
    (offsets_indexRecords _ hne (by omega)).1⟩
  · simp [hdata, Fs.append_files, hdi, hc]
  · simp [hfs, Fs.append_files, Ne.symm hdi]
  · rintro pre ⟨_ | ⟨e, es⟩⟩ post rfl
    · exact absurd rfl (hne _ (by simp))
    have hpre : ∀ b ∈ pre, b.entries ≠ [] := fun b hb => hne b (by simp [hb])
    have hpos : c.length + ((pre.map Block.data).flatten).length < 2 ^ 32 := by
      simp only [List.map_append, List.map_cons, List.flatten_append, List.flatten_cons,
        List.length_append] at hlen
      omega
    refine ⟨e, es, rfl, by rw [getElem?_indexRecords _ hpre, Nat.mod_eq_of_lt hpos], ?_⟩
    rw [← List.length_append, List.map_append, List.flatten_append, ← List.append_assoc,
      List.drop_left]
    exact ⟨(es.map BlockEntry.encode).flatten ++ (post.map Block.data).flatten, by simp [Block.data]⟩

/-- Two entries under 2040-byte keys: their records, 2057 bytes each, do not fit one block. -/
def twoBlockEntries : SkipMap EntryValue :=
  ⟨[(1 :: List.replicate 2039 0, 0, 0, false), (2 :: List.replicate 2039 0, 18, 0, false)],
    by unfold Ascending; decide⟩

def twoBlockTable : SSTable := (emptyTable dataDir 0).setEntries twoBlockEntries

theorem writeToFile_indexes_each_block_two_blocks :
    blockSize < (dataBytes twoBlockTable.entries).length ∧
      freshFiles.files twoBlockTable.dataFilePath = some [] ∧
      twoBlockTable.dataFilePath ≠ twoBlockTable.indexFilePath ∧
      FitsBlocks twoBlockTable.entries.toList ∧
      ([] : Bytes).length + (dataBytes twoBlockTable.entries).length < 2 ^ 32 ∧
      ∃ blocks w', twoBlockTable.writeToFile ⟨freshFiles, []⟩ = .ok () w' ∧
        (∀ b ∈ blocks, b.entries ≠ []) ∧
        (blocks.map Block.entries).flatten = twoBlockTable.entries.toList.map blockEntryOf ∧
        w'.fs.files twoBlockTable.dataFilePath = some ([] ++ (blocks.map Block.data).flatten) ∧
        w'.fs.files twoBlockTable.indexFilePath =
          some ((freshFiles.files twoBlockTable.indexFilePath).getD [] ++
            ((indexRecords ([] : Bytes).length blocks).map indexRecord).flatten) ∧
        (indexRecords ([] : Bytes).length blocks).length = blocks.length ∧
        (∀ pre b post, blocks = pre ++ b :: post → ∃ e es, b.entries = e :: es ∧
          (indexRecords ([] : Bytes).length blocks)[pre.length]? =
            some (e.keyPrefix, e.key, ([] : Bytes).length + ((pre.map Block.data).flatten).length) ∧
          ∃ rest, (([] : Bytes) ++ (blocks.map Block.data).flatten).drop
            (([] : Bytes).length + ((pre.map Block.data).flatten).length) = e.encode ++ rest) ∧
        (indexRecords ([] : Bytes).length blocks).Pairwise fun r r' => r.2.2 < r'.2.2 :=
  have hlen : (dataBytes twoBlockTable.entries).length = 4114 := by
    show (recordOf (1 :: List.replicate 2039 0, 0, 0, false) ++
      (recordOf (2 :: List.replicate 2039 0, 18, 0, false) ++ [])).length = 4114
    rw [List.length_append, List.length_append, recordOf, recordOf, length_encodeEntry,
      length_encodeEntry]
    simp only [List.length_cons, List.length_replicate, List.length_nil]
  have hdi : twoBlockTable.dataFilePath ≠ twoBlockTable.indexFilePath := by
    simp [twoBlockTable, emptyTable]
  have hfit : FitsBlocks twoBlockTable.entries.toList := by
    intro e he
    simp only [twoBlockTable, setEntries, twoBlockEntries, List.mem_cons, List.mem_singleton,
      List.not_mem_nil, or_false] at he
    rcases he with rfl | rfl <;> simp only [List.length_cons, List.length_replicate, blockSize] <;>
      omega
  have hsize : ([] : Bytes).length + (dataBytes twoBlockTable.entries).length < 2 ^ 32 := by
    rw [hlen]
    decide
  ⟨by rw [hlen]; decide, rfl, hdi, hfit, hsize,
    writeToFile_indexes_each_block twoBlockTable rfl hdi hfit hsize⟩

theorem oversized_record_writes_no_block :
    ((emptyTable dataDir 0).setEntries oversizedEntry).writeToFile ⟨freshFiles, []⟩ =
      .error .blockIsFull ⟨freshFiles, []⟩ :=
  writeToFile_of_fillBlocks_error
    (fillBlocks_oversized _ _ _ _ (by rw [List.length_replicate]; decide)) _

theorem sstSizeFromEntries_eq (m : SkipMap EntryValue) :
    sstSizeFromEntries m = (dataBytes m).length := by
  unfold sstSizeFromEntries dataBytes
  induction m.toList with
  | nil => rfl
  | cons e l ih => simp only [List.map_cons, List.sum_cons, List.flatten_cons, List.length_append,
      ih, recordOf, length_encodeEntry]

/-- What `set_sst_size_from_entries` counts is what `write_to_file` writes: once a table set to
entries `E` is written, under any fault schedule that lets the write succeed, its data file
holds what it held followed by the table's records, exactly `size` bytes of them. -/
theorem setEntries_size_eq_written_length (t : SSTable) (E : SkipMap EntryValue) {w w' : World}
    {c : Bytes} (hc : w.fs.files t.dataFilePath = some c) (hdi : t.dataFilePath ≠ t.indexFilePath)
    (h : (t.setEntries E).writeToFile w = .ok () w') :
    w'.fs.files t.dataFilePath = some (c ++ dataBytes E) ∧
      (t.setEntries E).size = (dataBytes E).length := by
  obtain ⟨blocks, -, hentries, hfs⟩ := @writeToFile_eq_ok (t.setEntries E) w w' c hc h
  refine ⟨?_, sstSizeFromEntries_eq E⟩
  rw [hfs]
  simp [Fs.append_files, hdi, hc, flatten_data_eq hentries, dataBytes]

theorem setEntries_size_eq_written_length_two_entries :
    freshFiles.files (emptyTable dataDir 0).dataFilePath = some [] ∧
      (emptyTable dataDir 0).dataFilePath ≠ (emptyTable dataDir 0).indexFilePath ∧
      ∃ w', ((emptyTable dataDir 0).setEntries twoEntries).writeToFile ⟨freshFiles, []⟩ = .ok () w' ∧
        w'.fs.files (emptyTable dataDir 0).dataFilePath = some ([] ++ dataBytes twoEntries) ∧
        ((emptyTable dataDir 0).setEntries twoEntries).size = (dataBytes twoEntries).length :=
  ⟨rfl, by decide, _, rfl, @setEntries_size_eq_written_length (emptyTable dataDir 0) twoEntries
    ⟨freshFiles, []⟩ _ [] rfl (by decide) rfl⟩

end SSTable
end Velarix
