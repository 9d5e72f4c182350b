import Velarix.SSTable.Scan

/-! The record grammar of a data file, for which one pass of the decode loops is sound and
complete; `get` and `from_file` on every file `from_file` accepts. -/
namespace Velarix
set_option autoImplicit false
open Io

namespace SSTable

/-- The bytes of one complete record and the entry they are read as. The tombstone byte is read
as `byte == 1`, so every byte other than 1 reads as live. -/
inductive Record : Bytes → Key × EntryValue → Prop
  | mk (keyLenBytes key valOffsetBytes createdAtBytes : Bytes) (isTombstoneByte : UInt8)
      (hkl : keyLenBytes.length = 4) (hkey : key.length = ofLe keyLenBytes) (hpos : 0 < key.length)
      (hvo : valOffsetBytes.length = 4) (hca : createdAtBytes.length = 8) :
      Record (keyLenBytes ++ key ++ valOffsetBytes ++ createdAtBytes ++ [isTombstoneByte])
        (key, ofLe valOffsetBytes, UInt64.ofNat (ofLe createdAtBytes), isTombstoneByte == 1)

theorem readEntry_complete {b : Bytes} {x : Key × EntryValue} (h : Record b x) (r : Bytes) :
    readEntry (b ++ r) = .ok (some (x, r)) := by
  obtain ⟨kl, key, vo, ca, tb, hkl, hkey, hpos, hvo, hca⟩ := h
  simp only [List.append_assoc]
  unfold readEntry
  rw [fileRead_append _ hkl]
  dsimp only
  rw [if_neg (by omega), pad_of_length hkl, ← hkey, fileRead_append _ rfl]
  dsimp only
  rw [if_neg (by omega), fileRead_append _ hvo]
  dsimp only
  rw [if_neg (by omega), fileRead_append _ hca]
  dsimp only
  rw [if_neg (by omega), fileRead_append (n := 1) (a := [tb]) _ rfl]
  dsimp only
  rw [if_neg (by simp), pad_of_length rfl, pad_of_length hvo, pad_of_length hca,
    @pad_of_length 1 [tb] rfl]
  rfl

private theorem exists_split {l : Bytes} {n m : Nat} (h : l.length = n + m) :
    ∃ a c, l = a ++ c ∧ a.length = n ∧ c.length = m :=
  ⟨l.take n, l.drop n, (List.take_append_drop n l).symm, by simp; omega, by simp; omega⟩

theorem readEntry_sound {rest r : Bytes} {x : Key × EntryValue}
    (h : readEntry rest = .ok (some (x, r))) : ∃ b, rest = b ++ r ∧ Record b x := by
  obtain ⟨hpos, hle, -⟩ := readEntry_eq_ok_some h
  generalize hK : keyLenAt rest = K at hpos hle
  obtain ⟨b, r', rfl, hb, -⟩ := exists_split (l := rest) (n := K + 17)
    (m := rest.length - (K + 17)) (by omega)
  obtain ⟨kl, b₁, rfl, hkl, hb₁⟩ := exists_split (l := b) (n := 4) (m := K + 13) (by omega)
  obtain ⟨key, b₂, rfl, hkey, hb₂⟩ := exists_split (l := b₁) (n := K) (m := 13) (by omega)
  obtain ⟨vo, b₃, rfl, hvo, hb₃⟩ := exists_split (l := b₂) (n := 4) (m := 9) (by omega)
  obtain ⟨ca, b₄, rfl, hca, hb₄⟩ := exists_split (l := b₃) (n := 8) (m := 1) (by omega)
  obtain ⟨tb, rfl⟩ := List.length_eq_one.mp hb₄
  have hkl' : K = ofLe kl := by
    rw [← hK, keyLenAt, List.append_assoc, List.take_left' hkl, pad_of_length hkl]
  have hrec := Record.mk kl key vo ca tb hkl (hkey.trans hkl') (by omega) hvo hca
  have hcomp := readEntry_complete hrec r'
  simp only [List.append_assoc] at hcomp h ⊢
  rw [hcomp] at h
  cases h
  exact ⟨_, by simp only [List.append_assoc], hrec⟩

/-- A byte string made of complete records, read as the entries listed, in order. -/
inductive Records : Bytes → List (Key × EntryValue) → Prop
  | nil : Records [] []
  | cons {b rest : Bytes} {x : Key × EntryValue} {xs : List (Key × EntryValue)} :
      Record b x → Records rest xs → Records (b ++ rest) (x :: xs)

/-- The map `from_file` rebuilds from the entries read, inserting each in file order. -/
def rebuild (xs : List (Key × EntryValue)) (m : SkipMap EntryValue) : SkipMap EntryValue :=
  xs.foldl (fun m x => m.insert x.1 x.2) m

theorem decodeLoop_records {B : Bytes} {xs : List (Key × EntryValue)} (h : Records B xs) :
    ∀ m, decodeLoop B m = .ok (rebuild xs m) := by
  induction h with
  | nil => intro m; rw [decodeLoop]; rfl
  | cons hb _ ih =>
    intro m
    rw [decodeLoop]
    split <;> rename_i hr <;> rw [readEntry_complete hb] at hr <;> cases hr
    exact ih _

theorem decodeLoop_eq_ok {B : Bytes} {m m' : SkipMap EntryValue} (h : decodeLoop B m = .ok m') :
    ∃ xs, Records B xs ∧ m' = rebuild xs m := by
  induction B, m using decodeLoop.induct with
  | case1 rest entries e hr => rw [decodeLoop, hr] at h; cases h
  | case2 rest entries hr =>
    rw [decodeLoop, hr] at h
    cases h
    exact ⟨[], eq_nil_of_readEntry hr ▸ .nil, rfl⟩
  | case3 rest entries key value rest' hr ih =>
    rw [decodeLoop, hr] at h
    obtain ⟨xs, hxs, rfl⟩ := ih h
    obtain ⟨b, rfl, hb⟩ := readEntry_sound hr
    exact ⟨(key, value) :: xs, .cons hb hxs, rfl⟩

theorem decodeLoop_eq_error {B : Bytes} {m : SkipMap EntryValue} {e : StorageEngineError}
    (h : decodeLoop B m = .error e) : e = .unexpectedEOF := by
  induction B, m using decodeLoop.induct with
  | case1 rest entries e' hr =>
    rw [decodeLoop, hr] at h
    cases h
    exact readEntry_error hr
  | case2 rest entries hr => rw [decodeLoop, hr] at h; cases h
  | case3 rest entries key value rest' hr ih => rw [decodeLoop, hr] at h; exact ih h

theorem searchLoop_records {B : Bytes} {xs : List (Key × EntryValue)} (h : Records B xs)
    (k : Key) : searchLoop B k = .ok ((xs.find? fun x => x.1 = k).map Prod.snd) := by
  induction h with
  | nil => rw [searchLoop]; rfl
  | @cons b rest x xs hb _ ih =>
    obtain ⟨key, value⟩ := x
    rw [searchLoop]
    split <;> rename_i hr <;> rw [readEntry_complete hb] at hr <;> cases hr
    by_cases hk : key = k <;> simp [hk, ih]

theorem get_rebuild (k : Key) : ∀ (xs : List (Key × EntryValue)) (m : SkipMap EntryValue),
    (rebuild xs m).get k = ((xs.reverse.find? fun x => x.1 = k).map Prod.snd).or (m.get k)
  | [], m => rfl
  | x :: xs, m => by
    have ih := get_rebuild k xs (m.insert x.1 x.2)
    rw [rebuild, List.foldl_cons] at *
    rw [ih, List.reverse_cons, List.find?_append]
    cases xs.reverse.find? fun x => x.1 = k <;> by_cases hx : x.1 = k <;>
      simp [SkipMap.get_insert, List.find?_cons, hx]

theorem find?_reverse_of_countP_le_one {k : Key} :
    ∀ {xs : List (Key × EntryValue)}, xs.countP (fun x => x.1 = k) ≤ 1 →
      (xs.reverse.find? fun x => x.1 = k) = xs.find? fun x => x.1 = k
  | [], _ => rfl
  | x :: xs, h => by
    rw [List.countP_cons] at h
    rw [List.reverse_cons, List.find?_append, List.find?_cons]
    by_cases hx : x.1 = k
    · have hnone : ∀ y ∈ xs, ¬ y.1 = k := by
        simpa [hx, List.countP_eq_zero] using h
      have hfind : (xs.reverse.find? fun x => x.1 = k) = none :=
        List.find?_eq_none.mpr fun y hy => by simpa using hnone y (List.mem_reverse.mp hy)
      simp [hfind, hx]
    · simp only [hx, decide_False, if_false, Nat.add_zero] at h
      simp [hx, find?_reverse_of_countP_le_one h]

theorem fromFile_eq (dir data index : Path) (now : Nat) {w : World} {B : Bytes}
    (hd : w.fs.files data = some B) (hi : (w.fs.files index).isSome) :
    fromFile dir data index now w = match decodeLoop B SkipMap.empty with
      | .ok m => .ok (some ⟨data, index, dir, m, now, B.length⟩) w
      | .error e => .error e w := by
  have hdec := decodeEntries_eq_decodeLoop (B.length + 1) B SkipMap.empty (by omega)
  cases hloop : decodeLoop B SkipMap.empty <;>
    simp only [fromFile, bind, EStateM.bind, fileExists, openRead, readFile, hd, hi,
      Option.isSome_some, Bool.not_true, Bool.false_eq_true, ↓reduceIte, pure, EStateM.pure,
      Option.getD_some, MonadExcept.ofExcept, hdec, hloop, metadataLen, throw, throwThe,
      MonadExceptOf.throw, EStateM.throw]

/-- `from_file` on a data file that exists, beside an index file: it accepts exactly the files
made of complete records, returning the map rebuilt from them in file order and the file's
length as the size, and fails with `UnexpectedEOF` on every other. Either way the disk is left
as it was. -/
theorem fromFile_cases (dir data index : Path) (now : Nat) {w : World} {B : Bytes}
    (hd : w.fs.files data = some B) (hi : (w.fs.files index).isSome) :
    (∃ xs, Records B xs ∧ fromFile dir data index now w =
        .ok (some ⟨data, index, dir, rebuild xs SkipMap.empty, now, B.length⟩) w) ∨
      ((¬ ∃ xs, Records B xs) ∧ fromFile dir data index now w = .error .unexpectedEOF w) := by
  rw [fromFile_eq dir data index now hd hi]
  cases hloop : decodeLoop B SkipMap.empty with
  | ok m =>
    obtain ⟨xs, hxs, rfl⟩ := decodeLoop_eq_ok hloop
    exact .inl ⟨xs, hxs, rfl⟩
  | error e =>
    obtain rfl := decodeLoop_eq_error hloop
    refine .inr ⟨fun ⟨xs, hxs⟩ => ?_, rfl⟩
    rw [decodeLoop_records hxs] at hloop
    cases hloop

/-- A data file of two records under the key `[1]`, with value offsets 5 and 7, beside the empty
index file `SSTable::new(data, true)` made. -/
def repeatedKeyFiles : Fs :=
  freshFiles.setFile (dataDir.join (.sstable 0))
    (some (recordOf ([1], 5, 0, false) ++ recordOf ([1], 7, 0, false)))

theorem fromFile_cases_repeated_key :
    repeatedKeyFiles.files (dataDir.join (.sstable 0)) =
        some (recordOf ([1], 5, 0, false) ++ recordOf ([1], 7, 0, false)) ∧
      (repeatedKeyFiles.files (dataDir.join (.index 0))).isSome ∧
      ((∃ xs, Records (recordOf ([1], 5, 0, false) ++ recordOf ([1], 7, 0, false)) xs ∧
          fromFile dataDir (dataDir.join (.sstable 0)) (dataDir.join (.index 0)) 0
              ⟨repeatedKeyFiles, []⟩ =
            .ok (some ⟨dataDir.join (.sstable 0), dataDir.join (.index 0), dataDir,
              rebuild xs SkipMap.empty, 0,
              (recordOf ([1], 5, 0, false) ++ recordOf ([1], 7, 0, false)).length⟩)
              ⟨repeatedKeyFiles, []⟩) ∨
        ((¬ ∃ xs, Records (recordOf ([1], 5, 0, false) ++ recordOf ([1], 7, 0, false)) xs) ∧
          fromFile dataDir (dataDir.join (.sstable 0)) (dataDir.join (.index 0)) 0
              ⟨repeatedKeyFiles, []⟩ = .error .unexpectedEOF ⟨repeatedKeyFiles, []⟩)) :=
  ⟨rfl, rfl, fromFile_cases dataDir _ _ 0 (w := ⟨repeatedKeyFiles, []⟩) rfl rfl⟩

theorem fromFile_eq_ok_some {dir data index : Path} {now : Nat} {w w' : World} {t : SSTable}
    (h : fromFile dir data index now w = .ok (some t) w') :
    w' = w ∧ ∃ B xs, w.fs.files data = some B ∧ Records B xs ∧
      t = ⟨data, index, dir, rebuild xs SkipMap.empty, now, B.length⟩ := by
  cases hd : w.fs.files data with
  | none => simp [fromFile, bind, EStateM.bind, fileExists, hd, pure, EStateM.pure] at h
  | some B =>
    cases hi : (w.fs.files index).isSome
    · simp [fromFile, bind, EStateM.bind, fileExists, openRead, hd, hi, pure, EStateM.pure] at h
    rw [fromFile_eq dir data index now hd hi] at h
    split at h <;> cases h
    next m hloop =>
    obtain ⟨xs, hxs, rfl⟩ := decodeLoop_eq_ok hloop
    exact ⟨rfl, B, xs, rfl, hxs, rfl⟩

theorem get_zero_records {t : SSTable} {w : World} {B : Bytes} {xs : List (Key × EntryValue)}
    (hd : w.fs.files t.dataFilePath = some B) (hxs : Records B xs) (k : Key) :
    t.get 0 k w = .ok ((xs.find? fun x => x.1 = k).map Prod.snd) w := by
  simp only [get, bind, EStateM.bind, readFile, hd, Option.getD_some, List.drop_zero,
    searchEntries_eq_searchLoop (B.length + 1) B k (by omega), searchLoop_records hxs,
    MonadExcept.ofExcept]
  rfl

/-- On every data file `from_file` accepts, `get` from offset 0 answers with the first record of
a key, while the table `from_file` returns keeps, in memory, the value of the last: the scan and
`get_value_from_entries` agree on every key at most one record carries, as in every file
`write_to_file` writes, and may differ on a key that repeats. The disk is left as it was. -/
theorem get_agrees_with_fromFile {dir data index : Path} {now : Nat} {w w' : World}
    {t' : SSTable} (h : fromFile dir data index now w = .ok (some t') w') :
    w' = w ∧ ∃ B xs, w.fs.files data = some B ∧ Records B xs ∧
      ∀ (t : SSTable) (k : Key), t.dataFilePath = data →
        t.get 0 k w = .ok ((xs.find? fun x => x.1 = k).map Prod.snd) w ∧
        t'.getValueFromEntries k = (xs.reverse.find? fun x => x.1 = k).map Prod.snd ∧
        (xs.countP (fun x => x.1 = k) ≤ 1 → t.get 0 k w = .ok (t'.getValueFromEntries k) w) := by
  obtain ⟨rfl, B, xs, hd, hxs, rfl⟩ := fromFile_eq_ok_some h
  refine ⟨rfl, B, xs, hd, hxs, fun t k ht => ?_⟩
  have hget := get_zero_records (by rw [ht]; exact hd) hxs k
  have hmem : getValueFromEntries ⟨data, index, dir, rebuild xs SkipMap.empty, now, B.length⟩ k =
      (xs.reverse.find? fun x => x.1 = k).map Prod.snd := by
    rw [getValueFromEntries, get_rebuild]
    cases (xs.reverse.find? fun x => x.1 = k) <;> rfl
  refine ⟨hget, hmem, fun hk => ?_⟩
  rw [hget, hmem, find?_reverse_of_countP_le_one hk]

theorem get_agrees_with_fromFile_repeated_key :
    ∃ t', fromFile dataDir (dataDir.join (.sstable 0)) (dataDir.join (.index 0)) 0
        ⟨repeatedKeyFiles, []⟩ = .ok (some t') ⟨repeatedKeyFiles, []⟩ ∧
      (⟨repeatedKeyFiles, []⟩ : World) = ⟨repeatedKeyFiles, []⟩ ∧
      ∃ B xs, repeatedKeyFiles.files (dataDir.join (.sstable 0)) = some B ∧ Records B xs ∧
        ∀ (t : SSTable) (k : Key), t.dataFilePath = dataDir.join (.sstable 0) →
          t.get 0 k ⟨repeatedKeyFiles, []⟩ =
            .ok ((xs.find? fun x => x.1 = k).map Prod.snd) ⟨repeatedKeyFiles, []⟩ ∧
          t'.getValueFromEntries k = (xs.reverse.find? fun x => x.1 = k).map Prod.snd ∧
          (xs.countP (fun x => x.1 = k) ≤ 1 →
            t.get 0 k ⟨repeatedKeyFiles, []⟩ = .ok (t'.getValueFromEntries k) ⟨repeatedKeyFiles, []⟩) :=
  ⟨_, rfl, @get_agrees_with_fromFile dataDir (dataDir.join (.sstable 0)) (dataDir.join (.index 0)) 0
    ⟨repeatedKeyFiles, []⟩ ⟨repeatedKeyFiles, []⟩ _ rfl⟩

end SSTable
end Velarix
