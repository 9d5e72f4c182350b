import Velarix.Bytes

/-! `crossbeam_skiplist::SkipMap<Vec<u8>, V>`: keys in `Vec<u8>` order, each once.
It is kept as its ascending entry list, which is what `iter()` yields. -/
namespace Velarix

/-- Keys are byte strings. -/
abbrev Key := Bytes

/-- `Ord for Vec<u8>`: lexicographic on byte values. -/
def keyLt (a b : Key) : Prop := a.map UInt8.toNat < b.map UInt8.toNat

instance : DecidableRel keyLt := fun _ _ => inferInstanceAs (Decidable (_ < _))

theorem keyLt_asymm {a b : Key} (h : keyLt a b) : ¬ keyLt b a := lt_asymm h

theorem keyLt_irrefl (a : Key) : ¬ keyLt a a := lt_irrefl _

theorem keyLt_trans {a b c : Key} (h₁ : keyLt a b) (h₂ : keyLt b c) : keyLt a c := lt_trans h₁ h₂

theorem keyLt_or_of_ne {a b : Key} (h : a ≠ b) : keyLt a b ∨ keyLt b a := by
  rcases lt_trichotomy (a.map UInt8.toNat) (b.map UInt8.toNat) with h' | h' | h'
  · exact .inl h'
  · exact absurd (List.map_injective_iff.mpr (fun _ _ e => UInt8.toNat.inj e) h') h
  · exact .inr h'

/-- Strictly ascending keys. -/
def Ascending {V : Type} (l : List (Key × V)) : Prop := l.Pairwise (fun a b => keyLt a.1 b.1)

structure SkipMap (V : Type) where
  toList : List (Key × V)
  ascending : Ascending toList

namespace SkipMap
variable {V : Type}

theorem ext {a b : SkipMap V} (h : a.toList = b.toList) : a = b := by
  cases a; cases b; cases h; rfl

def empty : SkipMap V := ⟨[], List.Pairwise.nil⟩

/-- `insert` on the entry list: a new key goes in its place, an existing one is replaced. -/
def insertList (k : Key) (v : V) : List (Key × V) → List (Key × V)
  | [] => [(k, v)]
  | e :: es =>
    if keyLt k e.1 then (k, v) :: e :: es
    else if k = e.1 then (k, v) :: es
    else e :: insertList k v es

theorem mem_insertList {k : Key} {v : V} {x : Key × V} :
    ∀ {l : List (Key × V)}, x ∈ insertList k v l → x = (k, v) ∨ x ∈ l
  | [], h => by simpa [insertList] using h
  | e :: es, h => by
    unfold insertList at h
    split_ifs at h
    · simpa using h
    · simp only [List.mem_cons] at h
      rcases h with h | h
      · exact .inl h
      · exact .inr (List.mem_cons_of_mem _ h)
    · simp only [List.mem_cons] at h
      rcases h with h | h
      · exact .inr (h ▸ List.mem_cons_self _ _)
      · rcases mem_insertList h with h | h
        · exact .inl h
        · exact .inr (List.mem_cons_of_mem _ h)

theorem ascending_insertList (k : Key) (v : V) :
    ∀ {l : List (Key × V)}, Ascending l → Ascending (insertList k v l)
  | [], _ => List.pairwise_singleton _ _
  | e :: es, h => by
    have hes := List.pairwise_cons.mp h
    unfold insertList
    split_ifs with hlt heq
    · exact List.Pairwise.cons (fun x hx => by
        rcases List.mem_cons.mp hx with rfl | hx
        · exact hlt
        · exact keyLt_trans hlt (hes.1 x hx)) h
    · exact List.Pairwise.cons (fun x hx => heq ▸ hes.1 x hx) hes.2
    · have hgt : keyLt e.1 k := (keyLt_or_of_ne heq).resolve_left hlt
      exact List.Pairwise.cons (fun x hx => by
        rcases mem_insertList hx with rfl | hx
        · exact hgt
        · exact hes.1 x hx) (ascending_insertList k v hes.2)

theorem insertList_of_lt {k : Key} {v : V} :
    ∀ {l : List (Key × V)}, (∀ e ∈ l, keyLt e.1 k) → insertList k v l = l ++ [(k, v)]
  | [], _ => rfl
  | e :: es, h => by
    have he := h e (List.mem_cons_self _ _)
    rw [insertList, if_neg (keyLt_asymm he), if_neg (fun hk : k = e.1 => keyLt_irrefl k (hk ▸ he)),
      insertList_of_lt (fun x hx => h x (List.mem_cons_of_mem _ hx))]
    rfl

def insert (m : SkipMap V) (k : Key) (v : V) : SkipMap V :=
  ⟨insertList k v m.toList, ascending_insertList k v m.ascending⟩

def get (m : SkipMap V) (k : Key) : Option V := (m.toList.find? (fun e => e.1 = k)).map Prod.snd

theorem find?_insertList (k k' : Key) (v : V) : ∀ l : List (Key × V),
    (insertList k v l).find? (fun e => e.1 = k') =
      if k = k' then some (k, v) else l.find? (fun e => e.1 = k')
  | [] => by by_cases h : k = k' <;> simp [insertList, h]
  | e :: es => by
    by_cases hlt : keyLt k e.1
    · rw [insertList, if_pos hlt]
      by_cases h : k = k' <;> simp [List.find?_cons, h]
    by_cases heq : k = e.1
    · rw [insertList, if_neg hlt, if_pos heq]
      by_cases h : k = k' <;> simp [List.find?_cons, h, ← heq]
    rw [insertList, if_neg hlt, if_neg heq]
    by_cases he : e.1 = k'
    · simp [List.find?_cons, he, show k ≠ k' from he ▸ heq]
    · simp only [List.find?_cons, he, decide_False, find?_insertList k k' v es]

@[simp] theorem get_insert (m : SkipMap V) (k k' : Key) (v : V) :
    (m.insert k v).get k' = if k = k' then some v else m.get k' := by
  simp only [get, insert, find?_insertList]
  split <;> rfl

theorem find?_of_mem {e : Key × V} :
    ∀ {l : List (Key × V)}, Ascending l → e ∈ l → l.find? (fun x => x.1 = e.1) = some e
  | [], _, h => by cases h
  | a :: l, asc, h => by
    have ha := List.pairwise_cons.mp asc
    rcases List.mem_cons.mp h with rfl | h
    · simp
    · have hne : a.1 ≠ e.1 := fun heq => keyLt_irrefl _ (heq ▸ ha.1 e h)
      simp [List.find?_cons, hne, find?_of_mem ha.2 h]

theorem get_of_mem {m : SkipMap V} {e : Key × V} (h : e ∈ m.toList) : m.get e.1 = some e.2 := by
  simp [get, find?_of_mem m.ascending h]

def len (m : SkipMap V) : Nat := m.toList.length

def keys (m : SkipMap V) : List Key := m.toList.map Prod.fst

theorem foldl_insertList :
    ∀ {l acc : List (Key × V)}, Ascending (acc ++ l) →
      l.foldl (fun m e => insertList e.1 e.2 m) acc = acc ++ l
  | [], acc, _ => by simp
  | e :: l, acc, h => by
    have hlt : ∀ x ∈ acc, keyLt x.1 e.1 :=
      fun x hx => (List.pairwise_append.mp h).2.2 x hx e (List.mem_cons_self _ _)
    rw [List.foldl_cons, insertList_of_lt hlt, foldl_insertList (by simpa using h)]
    simp

end SkipMap
end Velarix
