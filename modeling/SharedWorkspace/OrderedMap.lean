/-!
Finite maps kept as a list of entries in strictly increasing order of their keys. The list is
determined by what the map holds: two maps that answer every look-up alike are equal
(`OrderedMap.ext_find?`).
-/

namespace SharedWorkspace

open Std

/--
A finite map from `κ` to `α`; its entries are listed by increasing key.
-/
structure OrderedMap (κ : Type) (α : Type) [Ord κ] where
  entries : List (κ × α)
  sorted : entries.Pairwise fun a b => compare a.1 b.1 = .lt

namespace OrderedMap

variable {κ α β : Type} [Ord κ]

theorem eq_of_entries_eq {m n : OrderedMap κ α} (h : m.entries = n.entries) : m = n := by
  cases m; cases n; cases h; rfl

instance [DecidableEq κ] [DecidableEq α] : DecidableEq (OrderedMap κ α) := fun m n =>
  if h : m.entries = n.entries then
    isTrue (eq_of_entries_eq h)
  else
    isFalse fun h' => h (h' ▸ rfl)

def empty : OrderedMap κ α where
  entries := []
  sorted := .nil

instance : Inhabited (OrderedMap κ α) := ⟨empty⟩

instance : EmptyCollection (OrderedMap κ α) := ⟨empty⟩

def keys (m : OrderedMap κ α) : List κ :=
  m.entries.map Prod.fst

def values (m : OrderedMap κ α) : List α :=
  m.entries.map Prod.snd

def size (m : OrderedMap κ α) : Nat :=
  m.entries.length

def find?.go (k : κ) : List (κ × α) → Option α
  | [] => none
  | (k', a) :: es => if compare k k' = .eq then some a else go k es

def find? (m : OrderedMap κ α) (k : κ) : Option α :=
  find?.go k m.entries

def contains (m : OrderedMap κ α) (k : κ) : Bool :=
  (m.find? k).isSome

def insert.go (k : κ) (a : α) : List (κ × α) → List (κ × α)
  | [] => [(k, a)]
  | (k', a') :: es =>
    match compare k k' with
    | .lt => (k, a) :: (k', a') :: es
    | .eq => (k, a) :: es
    | .gt => (k', a') :: go k a es

theorem insert.mem_go {k : κ} {a : α} {es : List (κ × α)} {e : κ × α} (h : e ∈ go k a es) :
    e = (k, a) ∨ e ∈ es := by
  induction es with
  | nil => simpa [go] using h
  | cons e' es ih =>
    obtain ⟨k', a'⟩ := e'
    simp only [go] at h
    split at h <;> grind

theorem insert.go_sorted [TransOrd κ] {k : κ} {a : α} {es : List (κ × α)}
    (h : es.Pairwise fun a b => compare a.1 b.1 = .lt) :
    (go k a es).Pairwise fun a b => compare a.1 b.1 = .lt := by
  induction es with
  | nil => simp [go]
  | cons e es ih =>
    obtain ⟨k', a'⟩ := e
    rw [List.pairwise_cons] at h
    simp only [go]
    split
    . rename_i hk
      refine .cons (fun e he => ?_) (.cons h.1 h.2)
      rcases List.mem_cons.1 he with rfl | he
      . exact hk
      . exact TransCmp.lt_trans hk (h.1 e he)
    . rename_i hk
      exact .cons (fun e he => TransCmp.lt_of_eq_of_lt hk (h.1 e he)) h.2
    . rename_i hk
      refine .cons (fun e he => ?_) (ih h.2)
      rcases mem_go he with rfl | he
      . exact OrientedCmp.gt_iff_lt.1 hk
      . exact h.1 e he

def insert [TransOrd κ] (m : OrderedMap κ α) (k : κ) (a : α) : OrderedMap κ α where
  entries := insert.go k a m.entries
  sorted := insert.go_sorted m.sorted

def erase (m : OrderedMap κ α) (k : κ) : OrderedMap κ α where
  entries := m.entries.filter fun e => compare k e.1 != .eq
  sorted := m.sorted.filter _

def mapValues (f : α → β) (m : OrderedMap κ α) : OrderedMap κ β where
  entries := m.entries.map fun e => (e.1, f e.2)
  sorted := by
    rw [List.pairwise_map]
    exact m.sorted

/--
The map of a list of entries; of two entries with one key the later one counts.
-/
def ofList [TransOrd κ] (es : List (κ × α)) : OrderedMap κ α :=
  es.foldl (fun m e => m.insert e.1 e.2) empty

@[simp]
theorem find?_empty (k : κ) : (empty : OrderedMap κ α).find? k = none := rfl

theorem find?_insert [TransOrd κ] [LawfulEqOrd κ] (m : OrderedMap κ α) (k k' : κ) (a : α) :
    (m.insert k a).find? k' = if compare k' k = .eq then some a else m.find? k' := by
  obtain ⟨es, hes⟩ := m
  simp only [find?, insert]
  clear hes
  induction es with
  | nil => simp [insert.go, find?.go]
  | cons e es ih =>
    obtain ⟨k₀, a₀⟩ := e
    simp only [insert.go]
    split
    . simp [find?.go]
    . rename_i hk
      have := LawfulEqCmp.eq_of_compare hk
      subst this
      by_cases h : compare k' k = .eq <;> simp [find?.go, h]
    . rename_i hk
      by_cases h₀ : compare k' k₀ = .eq
      . have := LawfulEqCmp.eq_of_compare h₀
        subst this
        have hne : compare k' k ≠ .eq := by
          intro h
          have := LawfulEqCmp.eq_of_compare h
          subst this
          simp at hk
        simp [find?.go, hne]
      . simp [find?.go, h₀, ih]

theorem find?_insert_self [TransOrd κ] [LawfulEqOrd κ] (m : OrderedMap κ α) (k : κ) (a : α) :
    (m.insert k a).find? k = some a := by
  simp [find?_insert]

theorem find?_insert_of_ne [TransOrd κ] [LawfulEqOrd κ] (m : OrderedMap κ α) {k k' : κ} (a : α) (h : k' ≠ k) :
    (m.insert k a).find? k' = m.find? k' := by
  rw [find?_insert, if_neg (fun h' => h (LawfulEqCmp.eq_of_compare h'))]

theorem eq_or_contains_of_contains_insert [TransOrd κ] [LawfulEqOrd κ] {m : OrderedMap κ α} {k k' : κ} {a : α}
    (h : (m.insert k a).contains k' = true) : k' = k ∨ m.contains k' = true := by
  unfold contains at h ⊢
  rw [find?_insert] at h
  split at h
  . next heq => exact .inl (LawfulEqCmp.eq_of_compare heq)
  . exact .inr h

theorem find?_erase [LawfulEqOrd κ] (m : OrderedMap κ α) (k k' : κ) :
    (m.erase k).find? k' = if compare k' k = .eq then none else m.find? k' := by
  obtain ⟨es, hes⟩ := m
  simp only [find?, erase]
  clear hes
  induction es with
  | nil => simp [find?.go]
  | cons e es ih =>
    obtain ⟨k₀, a₀⟩ := e
    by_cases h : compare k k₀ = .eq
    . have := LawfulEqCmp.eq_of_compare h
      subst this
      by_cases h' : compare k' k = .eq
      . simp [h'] at ih; simp [h', ih]
      . simp [find?.go, h'] at ih ⊢; exact ih
    . by_cases h' : compare k' k = .eq
      . have := LawfulEqCmp.eq_of_compare h'
        subst this
        simp at ih
        simp [find?.go, h, ih]
      . simp [h'] at ih
        simp [find?.go, h, h', ih]

theorem find?_insert_eq_ite [TransOrd κ] [LawfulEqOrd κ] [DecidableEq κ] (m : OrderedMap κ α)
    (k k' : κ) (a : α) :
    (m.insert k a).find? k' = if k' = k then some a else m.find? k' := by
  simp only [find?_insert, LawfulEqCmp.compare_eq_iff_eq]

theorem find?_erase_eq_ite [LawfulEqOrd κ] [DecidableEq κ] (m : OrderedMap κ α) (k k' : κ) :
    (m.erase k).find? k' = if k' = k then none else m.find? k' := by
  simp only [find?_erase, LawfulEqCmp.compare_eq_iff_eq]

theorem find?.go_eq_some_of_mem [LawfulEqOrd κ] {es : List (κ × α)}
    (h : es.Pairwise fun a b => compare a.1 b.1 = .lt) {e : κ × α} (he : e ∈ es) :
    go e.1 es = some e.2 := by
  induction es with
  | nil => simp at he
  | cons e' es ih =>
    rw [List.pairwise_cons] at h
    rcases List.mem_cons.1 he with rfl | he
    . simp [go]
    . have hlt := h.1 e he
      have hne : compare e.1 e'.1 ≠ .eq := by
        intro h'
        have := LawfulEqCmp.eq_of_compare h'
        rw [this] at hlt
        simp at hlt
      simp [go, hne, ih h.2 he]

theorem find?.mem_of_go_eq_some [LawfulEqOrd κ] {es : List (κ × α)} {k : κ} {a : α}
    (h : go k es = some a) : (k, a) ∈ es := by
  induction es with
  | nil => simp [go] at h
  | cons e es ih =>
    obtain ⟨k₀, a₀⟩ := e
    simp only [go] at h
    split at h
    . rename_i hk
      have := LawfulEqCmp.eq_of_compare hk
      subst this
      simp_all
    . exact List.mem_cons_of_mem _ (ih h)

theorem find?_eq_some_iff [LawfulEqOrd κ] {m : OrderedMap κ α} {k : κ} {a : α} :
    m.find? k = some a ↔ (k, a) ∈ m.entries :=
  ⟨find?.mem_of_go_eq_some, fun h => find?.go_eq_some_of_mem m.sorted h⟩

theorem entries_eq_of_mem_iff [TransOrd κ] {es fs : List (κ × α)}
    (hes : es.Pairwise fun a b => compare a.1 b.1 = .lt)
    (hfs : fs.Pairwise fun a b => compare a.1 b.1 = .lt)
    (h : ∀ e, e ∈ es ↔ e ∈ fs) : es = fs := by
  induction es generalizing fs with
  | nil =>
    cases fs with
    | nil => rfl
    | cons f fs => simpa using (h f).2 List.mem_cons_self
  | cons e es ih =>
    cases fs with
    | nil => simpa using (h e).1 List.mem_cons_self
    | cons f fs =>
      rw [List.pairwise_cons] at hes hfs
      have irrefl : ∀ k : κ, compare k k ≠ .lt := by simp
      have hef : e = f := by
        rcases List.mem_cons.1 ((h e).1 List.mem_cons_self) with hef | hef
        . exact hef
        . rcases List.mem_cons.1 ((h f).2 List.mem_cons_self) with hfe | hfe
          . exact hfe.symm
          . exact absurd (TransCmp.lt_trans (hfs.1 e hef) (hes.1 f hfe)) (irrefl _)
      subst hef
      rw [ih hes.2 hfs.2]
      intro x
      constructor
      . intro hx
        rcases List.mem_cons.1 ((h x).1 (List.mem_cons_of_mem _ hx)) with rfl | hx'
        . exact absurd (hes.1 x hx) (irrefl _)
        . exact hx'
      . intro hx
        rcases List.mem_cons.1 ((h x).2 (List.mem_cons_of_mem _ hx)) with rfl | hx'
        . exact absurd (hfs.1 x hx) (irrefl _)
        . exact hx'

theorem ext_find? [TransOrd κ] [LawfulEqOrd κ] {m n : OrderedMap κ α} (h : ∀ k, m.find? k = n.find? k) :
    m = n := by
  apply eq_of_entries_eq
  apply entries_eq_of_mem_iff m.sorted n.sorted
  intro e
  have := h e.1
  constructor
  . intro he
    exact find?_eq_some_iff.1 (this ▸ find?_eq_some_iff.2 he)
  . intro he
    exact find?_eq_some_iff.1 (this.symm ▸ find?_eq_some_iff.2 he)

end OrderedMap
end SharedWorkspace
