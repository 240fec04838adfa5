/-
Matches from left to right.

Both kinds of search take matches where the scan stands and go on behind them. What
that makes of a list of matches is said once (`Match.Ordered`): they lie between two
positions, none is empty and none overlaps another.
-/
import Motif.Match

set_option autoImplicit false

namespace Motif

variable {α : Type}

namespace Match

/-- The matches lie between two positions, one behind the other. None is empty. -/
def Ordered : Nat → Nat → List (Match α) → Prop
  | low, high, [] => low ≤ high
  | low, high, found :: rest =>
    low ≤ found.first ∧ found.first ≤ found.last ∧ Ordered (found.last + 1) high rest

theorem Ordered.le {low high : Nat} {found : List (Match α)} (h : Ordered low high found) :
    low ≤ high := by
  induction found generalizing low with
  | nil => exact h
  | cons first rest ih =>
    obtain ⟨hlow, hfirst, hrest⟩ := h
    have := ih hrest
    omega

theorem Ordered.append {low middle high : Nat} {found found' : List (Match α)}
    (h : Ordered low middle found) (h' : Ordered middle high found') :
    Ordered low high (found ++ found') := by
  induction found generalizing low with
  | nil =>
    cases found' with
    | nil => exact Nat.le_trans h h'
    | cons first rest => exact ⟨Nat.le_trans h h'.1, h'.2⟩
  | cons first rest ih => exact ⟨h.1, h.2.1, ih h.2.2⟩

theorem Ordered.bounds {low high : Nat} {found : List (Match α)} (h : Ordered low high found) :
    ∀ f ∈ found, low ≤ f.first ∧ f.first ≤ f.last ∧ f.last < high := by
  induction found generalizing low with
  | nil => simp
  | cons first rest ih =>
    obtain ⟨hlow, hfirst, hrest⟩ := h
    have hle := hrest.le
    intro f hf
    rcases List.mem_cons.1 hf with rfl | hf
    · omega
    · have := ih hrest f hf
      omega

theorem Ordered.pairwise {low high : Nat} {found : List (Match α)} (h : Ordered low high found) :
    found.Pairwise fun f g => f.last < g.first := by
  induction found generalizing low with
  | nil => exact List.Pairwise.nil
  | cons first rest ih =>
    obtain ⟨-, -, hrest⟩ := h
    exact List.pairwise_cons.2 ⟨fun g hg => (hrest.bounds g hg).1, ih hrest⟩

/-- An attempt that claims no more than what lies ahead leads to no fault, and its
match lies where the scan passes over. -/
theorem exists_taken?_eq_ok (start : Nat) {ahead : List α} {best : Option Nat}
    (h : ∀ n, best = some n → n ≤ ahead.length) :
    ∃ taken, taken? start ahead best = .ok taken ∧
      Ordered start (start + stride best) taken.toList := by
  unfold taken?
  split
  · rename_i n
    rw [if_pos (h (n + 1) rfl)]
    exact ⟨_, rfl, Nat.le_refl _, Nat.le_add_right _ _, Nat.le_refl _⟩
  · exact ⟨none, rfl, Nat.le_add_right _ _⟩
  · exact ⟨none, rfl, Nat.le_add_right _ _⟩

/-- No match is made of no elements. -/
theorem elements_ne_nil_of_taken? {start : Nat} {ahead : List α} {best : Option Nat}
    {f : Match α} (h : taken? start ahead best = .ok (some f)) : f.elements ≠ [] := by
  obtain ⟨-, hle, -, -, helements⟩ := of_taken?_eq_some h
  have hstride := one_le_stride best
  rw [helements, ← List.length_pos_iff, List.length_take, Nat.min_eq_left hle]
  exact hstride

/-- Nothing is taken only if there is no match or an empty one. -/
theorem of_taken?_eq_none {start : Nat} {ahead : List α} {best : Option Nat}
    (h : taken? start ahead best = .ok none) : best = none ∨ best = some 0 := by
  unfold taken? at h
  split at h
  · split at h
    · cases h
    · cases h
  · exact Or.inr rfl
  · exact Or.inl rfl

/-- Where nothing lies ahead nothing is taken. -/
theorem taken?_nil {start : Nat} {best : Option Nat} (h : ∀ n, best = some n → n ≤ 0) :
    taken? start ([] : List α) best = .ok none := by
  cases best with
  | none => rfl
  | some n =>
    have hzero : n = 0 := Nat.le_zero.1 (h n rfl)
    subst hzero
    rfl

/-- What lies behind the match has no influence on it. -/
theorem taken?_append {start : Nat} {ahead : List α} (later : List α) {best : Option Nat}
    (h : ∀ n, best = some n → n ≤ ahead.length) :
    taken? start (ahead ++ later) best = taken? start ahead best := by
  unfold taken?
  split
  · rename_i n
    have hle : n + 1 ≤ ahead.length := h (n + 1) rfl
    have hle' : n + 1 ≤ (ahead ++ later).length := by
      rw [List.length_append]
      omega
    rw [if_pos hle, if_pos hle', List.take_append_of_le_length hle]
  · rfl
  · rfl

end Match

/-- The scan never passes over more than what lies ahead. -/
theorem stride_le {best : Option Nat} {n : Nat} (h : ∀ k, best = some k → k ≤ n) (hn : 0 < n) :
    stride best ≤ n := by
  unfold stride
  split
  · exact h _ rfl
  · exact hn
  · exact hn

end Motif
