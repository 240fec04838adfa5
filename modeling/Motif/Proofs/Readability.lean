/-
The text of a pattern can be read in one way only.

A pattern is bare, or it stands under repetitions, and in the text the bounds of all of them
follow the bare pattern, the innermost first. So a text is read in two steps. The bare pattern
opens with a sign of its own or with the name of a predicate, and what it opens it closes
again; nothing behind it matters (`bare_inj`). Then come bounds, for as long as there is an
opening brace. Whatever stands behind a whole pattern does not begin with one, because it
belongs to the list or the alternation around it (`letters_inj`).

The names of predicates are chosen by the caller. It is enough that different predicates have
different names, that a name does not begin like a pattern of another kind, and that no name
is another one with something behind it that could follow a pattern (`Legible`).
-/
import Motif.Pattern.Text
import Motif.Criterion

set_option autoImplicit false

namespace Motif

variable {π : Type}

/-! ## Where to stop reading -/

/-- What is read while a test holds is the same in two texts that are the same. -/
theorem append_inj_of_all {p : Char → Bool} {xs ys s t : List Char} {c d : Char}
    (hxs : ∀ a ∈ xs, p a = true) (hys : ∀ a ∈ ys, p a = true) (hc : ¬ p c = true)
    (hd : ¬ p d = true) (h : xs ++ c :: s = ys ++ d :: t) : xs = ys ∧ c :: s = d :: t := by
  have hleft : (xs ++ c :: s).takeWhile p = xs := by
    rw [List.takeWhile_append_of_pos hxs, List.takeWhile_cons_of_neg hc, List.append_nil]
  have hright : (ys ++ d :: t).takeWhile p = ys := by
    rw [List.takeWhile_append_of_pos hys, List.takeWhile_cons_of_neg hd, List.append_nil]
  have hsame : xs = ys := by rw [← hleft, h, hright]
  subst hsame
  exact ⟨rfl, List.append_cancel_left h⟩

/-- If the text begins with anything, then with one of the characters. -/
def BeginsIn (allowed : List Char) (s : List Char) : Prop := ∀ c ∈ s.head?, c ∈ allowed

theorem beginsIn_nil (allowed : List Char) : BeginsIn allowed [] := by simp [BeginsIn]

theorem beginsIn_cons {allowed : List Char} {c : Char} {s : List Char} :
    BeginsIn allowed (c :: s) ↔ c ∈ allowed := by simp [BeginsIn]

/-- What can stand behind a whole pattern. -/
def separators : List Char := [',', ']', '|', ')']

/-- What can stand behind a bare pattern. -/
def marks : List Char := '\x7b' :: separators

theorem BeginsIn.marks {s : List Char} (h : BeginsIn separators s) : BeginsIn marks s :=
  fun c hc => List.mem_cons_of_mem _ (h c hc)

/-! ## Numbers -/

/-- The digits of a number. -/
def digits (n : Nat) : List Char := (toString n).toList

theorem digits_eq (n : Nat) : digits n = Nat.toDigits 10 n := by
  rw [digits, Nat.toString_eq_ofList_toDigits, String.toList_ofList]

theorem isDigit_of_mem_digits {n : Nat} : ∀ c ∈ digits n, c.isDigit = true := by
  intro c hc
  rw [digits_eq] at hc
  exact Nat.isDigit_of_mem_toDigits (by decide) (by decide) hc

theorem digits_ne_nil (n : Nat) : digits n ≠ [] := by
  rw [digits_eq]
  exact Nat.toDigits_ne_nil

theorem digits_inj {m n : Nat} (h : digits m = digits n) : m = n := by
  rw [digits_eq, digits_eq] at h
  have hnumber := congrArg (fun ds => Nat.ofDigitChars 10 ds 0) h
  simpa using hnumber

/-- The digits of a bound that need not be there. -/
def boundDigits : Option Nat → List Char
  | some n => digits n
  | none => []

theorem isDigit_of_mem_boundDigits {max : Option Nat} :
    ∀ c ∈ boundDigits max, c.isDigit = true := by
  cases max with
  | none => simp [boundDigits]
  | some n => exact isDigit_of_mem_digits

theorem boundDigits_inj {max max' : Option Nat} (h : boundDigits max = boundDigits max') :
    max = max' := by
  cases max with
  | none =>
    cases max' with
    | none => rfl
    | some n => exact absurd h.symm (digits_ne_nil n)
  | some m =>
    cases max' with
    | none => exact absurd h (digits_ne_nil m)
    | some n => rw [digits_inj h]

/-! ## Quantifiers -/

/-- What a repetition says of its child. -/
structure Quantifier where
  min : Nat
  max : Option Nat
  greedy : Bool

namespace Quantifier

/-- The text behind the repeated pattern. -/
def letters (q : Quantifier) : List Char :=
  (Pattern.boundsText q.min q.max ++ Pattern.preferenceText q.greedy).toList

theorem letters_eq (q : Quantifier) :
    q.letters = '\x7b' :: (digits q.min ++ ',' :: (boundDigits q.max ++ '\x7d' ::
      if q.greedy then [] else ['?'])) := by
  obtain ⟨min, max, greedy⟩ := q
  cases max <;> cases greedy <;>
    simp [letters, Pattern.boundsText, Pattern.preferenceText, boundDigits, digits]

/-- **One quantifier.** A question mark behind it would belong to it. -/
theorem letters_inj {q r : Quantifier} {s t : List Char} (hs : BeginsIn marks s)
    (ht : BeginsIn marks t) (h : q.letters ++ s = r.letters ++ t) : q = r ∧ s = t := by
  obtain ⟨min, max, greedy⟩ := q
  obtain ⟨min', max', greedy'⟩ := r
  simp only [letters_eq, List.cons_append, List.append_assoc, List.cons.injEq, true_and] at h
  obtain ⟨hmin, h⟩ := append_inj_of_all isDigit_of_mem_digits isDigit_of_mem_digits
    (by decide) (by decide) h
  obtain ⟨hmax, h⟩ := append_inj_of_all isDigit_of_mem_boundDigits isDigit_of_mem_boundDigits
    (by decide) (by decide) (List.cons.inj h).2
  have hrest := (List.cons.inj h).2
  rw [digits_inj hmin, boundDigits_inj hmax]
  have hquestion : '?' ∉ marks := by decide
  cases greedy <;> cases greedy' <;> simp only [if_true, if_false, Bool.false_eq_true,
    List.nil_append, List.cons_append, List.cons.injEq, true_and] at hrest
  · exact ⟨rfl, hrest⟩
  · rw [← hrest] at ht
    exact absurd (beginsIn_cons.1 ht) hquestion
  · rw [hrest] at hs
    exact absurd (beginsIn_cons.1 hs) hquestion
  · exact ⟨rfl, hrest⟩

theorem beginsIn_letters (q : Quantifier) (s : List Char) : BeginsIn marks (q.letters ++ s) := by
  rw [letters_eq, List.cons_append]
  exact beginsIn_cons.2 List.mem_cons_self

theorem beginsIn_flatMap {s : List Char} (hs : BeginsIn separators s) (qs : List Quantifier) :
    BeginsIn marks (qs.flatMap letters ++ s) := by
  cases qs with
  | nil => exact hs.marks
  | cons q qs =>
    rw [List.flatMap_cons, List.append_assoc]
    exact beginsIn_letters q _

/-- A text in front of which a quantifier stands is not one that follows a whole pattern. -/
theorem not_beginsIn_separators (q : Quantifier) (s : List Char) :
    ¬ BeginsIn separators (q.letters ++ s) := by
  rw [letters_eq, List.cons_append, beginsIn_cons]
  decide

/-- **Quantifiers one behind the other.** The list ends where there is no opening brace. -/
theorem flatMap_letters_inj {qs rs : List Quantifier} {s t : List Char}
    (hs : BeginsIn separators s) (ht : BeginsIn separators t)
    (h : qs.flatMap letters ++ s = rs.flatMap letters ++ t) : qs = rs ∧ s = t := by
  induction qs generalizing rs with
  | nil =>
    cases rs with
    | nil => exact ⟨rfl, h⟩
    | cons r rs =>
      rw [List.flatMap_nil, List.nil_append, List.flatMap_cons, List.append_assoc] at h
      rw [h] at hs
      exact absurd hs (not_beginsIn_separators r _)
  | cons q qs ih =>
    cases rs with
    | nil =>
      rw [List.flatMap_nil, List.nil_append, List.flatMap_cons, List.append_assoc] at h
      rw [← h] at ht
      exact absurd ht (not_beginsIn_separators q _)
    | cons r rs =>
      rw [List.flatMap_cons, List.flatMap_cons, List.append_assoc, List.append_assoc] at h
      obtain ⟨rfl, htail⟩ := letters_inj (beginsIn_flatMap hs qs) (beginsIn_flatMap ht rs) h
      obtain ⟨rfl, hrest⟩ := ih htail
      exact ⟨rfl, hrest⟩

end Quantifier

namespace Pattern

/-! ## Repetitions around a pattern -/

/-- The pattern under all repetitions that stand around it. -/
def bare : Pattern π → Pattern π
  | repetition child _ _ _ => bare child
  | other => other

/-- The repetitions around the bare pattern, the innermost first. -/
def quantifiers : Pattern π → List Quantifier
  | repetition child min max greedy => quantifiers child ++ [⟨min, max, greedy⟩]
  | _ => []

/-- A pattern under repetitions, the innermost first. -/
def quantified (p : Pattern π) (qs : List Quantifier) : Pattern π :=
  qs.foldl (fun p q => repetition p q.min q.max q.greedy) p

/-- A pattern is its bare pattern under its repetitions. -/
theorem quantified_bare : (p : Pattern π) → p.bare.quantified p.quantifiers = p
  | predicate _ => rfl
  | any => rfl
  | sequence _ => rfl
  | alternation _ _ => rfl
  | anchor _ => rfl
  | repetition child min max greedy => by
    have hchild := quantified_bare child
    rw [quantified] at hchild
    rw [bare, quantifiers, quantified, List.foldl_append, hchild]
    rfl

/-- The pattern is no repetition. -/
def IsBare (p : Pattern π) : Prop := ∀ child min max greedy, p ≠ repetition child min max greedy

theorem isBare_bare : (p : Pattern π) → p.bare.IsBare
  | predicate _ => by simp [IsBare, bare]
  | any => by simp [IsBare, bare]
  | sequence _ => by simp [IsBare, bare]
  | alternation _ _ => by simp [IsBare, bare]
  | anchor _ => by simp [IsBare, bare]
  | repetition child _ _ _ => isBare_bare child

/-! ## The letters of a pattern -/

/-- The text of a pattern, letter by letter. -/
def letters (name : π → String) (p : Pattern π) : List Char := (p.text name).toList

/-- The texts of further children, with a comma in front of each. -/
def furtherLetters (name : π → String) (ps : List (Pattern π)) : List Char :=
  ps.flatMap fun p => ',' :: ' ' :: p.letters name

section Letters

variable (name : π → String)

@[simp] theorem letters_predicate (handle : π) :
    (predicate handle).letters name = (name handle).toList := rfl

@[simp] theorem letters_any : (any : Pattern π).letters name = ['A', 'n', 'y'] := by
  show "Any".toList = _
  simp

@[simp] theorem letters_atStart : (anchor .atStart : Pattern π).letters name = ['^'] := by
  show "^".toList = _
  simp

@[simp] theorem letters_atEnd : (anchor .atEnd : Pattern π).letters name = ['$'] := by
  show "$".toList = _
  simp

@[simp] theorem letters_alternation (left right : Pattern π) :
    (alternation left right).letters name =
      '(' :: (left.letters name ++ '|' :: (right.letters name ++ [')'])) := by
  show ("(" ++ left.text name ++ "|" ++ right.text name ++ ")").toList = _
  simp [letters]

@[simp] theorem letters_repetition (child : Pattern π) (min : Nat) (max : Option Nat)
    (greedy : Bool) :
    (repetition child min max greedy).letters name =
      child.letters name ++ Quantifier.letters ⟨min, max, greedy⟩ := by
  show (child.text name ++ boundsText min max ++ preferenceText greedy).toList = _
  simp [letters, Quantifier.letters]

theorem toList_textOfChildren (p : Pattern π) (ps : List (Pattern π)) :
    (textOfChildren name (p :: ps)).toList = p.letters name ++ furtherLetters name ps := by
  induction ps generalizing p with
  | nil => exact (List.append_nil _).symm
  | cons next ps ih =>
    show (p.text name ++ ", " ++ textOfChildren name (next :: ps)).toList = _
    rw [String.toList_append, ih next]
    simp [letters, furtherLetters]

@[simp] theorem letters_sequence_nil : (sequence [] : Pattern π).letters name = ['[', ']'] := by
  show ("[" ++ "" ++ "]").toList = _
  simp

@[simp] theorem letters_sequence_cons (p : Pattern π) (ps : List (Pattern π)) :
    (sequence (p :: ps)).letters name =
      '[' :: (p.letters name ++ (furtherLetters name ps ++ [']'])) := by
  show ("[" ++ textOfChildren name (p :: ps) ++ "]").toList = _
  rw [String.toList_append, String.toList_append, toList_textOfChildren]
  simp

/-- In the text of a pattern the bare pattern comes first and its quantifiers follow. -/
theorem letters_eq_bare_append : (p : Pattern π) →
    p.letters name = p.bare.letters name ++ p.quantifiers.flatMap Quantifier.letters
  | predicate _ => by simp [bare, quantifiers]
  | any => by simp [bare, quantifiers]
  | sequence _ => by simp [bare, quantifiers]
  | alternation _ _ => by simp [bare, quantifiers]
  | anchor _ => by simp [bare, quantifiers]
  | repetition child min max greedy => by
    rw [letters_repetition, letters_eq_bare_append child, bare, quantifiers, List.flatMap_append,
      List.append_assoc]
    simp

end Letters

/-! ## Names -/

/-- The signs with which patterns open that are no predicates. -/
def openings : List Char := ['A', '[', '(', '^', '$']

/-- With such names for its predicates a text can be read. -/
structure Legible (name : π → String) : Prop where
  /-- Different predicates have different names. -/
  injective : Function.Injective name
  /-- A name is not empty. It does not begin like a pattern of another kind, nor with the
  bracket that would close an empty list. -/
  begins : ∀ handle, ∃ c rest, (name handle).toList = c :: rest ∧ c ∉ ']' :: openings
  /-- No name is another one with something behind it that could follow a pattern. -/
  unmarked : ∀ handle handle' c rest,
    (name handle').toList = (name handle).toList ++ c :: rest → c ∉ marks

variable {name : π → String}

/-- The rest of a name would be something that can follow a pattern. -/
theorem Legible.eq_nil_of_append (hname : Legible name) {handle handle' : π} {rest s t : List Char}
    (hs : BeginsIn marks s) (hrest : (name handle').toList = (name handle).toList ++ rest)
    (h : s = rest ++ t) : rest = [] := by
  cases rest with
  | nil => rfl
  | cons c rest =>
    rw [h, List.cons_append, beginsIn_cons] at hs
    exact absurd hs (hname.unmarked handle handle' c rest hrest)

/-- **One name**, with something behind it that can follow a pattern. -/
theorem Legible.append_inj (hname : Legible name) {handle handle' : π} {s t : List Char}
    (hs : BeginsIn marks s) (ht : BeginsIn marks t)
    (h : (name handle).toList ++ s = (name handle').toList ++ t) : handle = handle' ∧ s = t := by
  rcases List.append_eq_append_iff.1 h with ⟨rest, hlonger, hrest⟩ | ⟨rest, hlonger, hrest⟩
  · have hnil := hname.eq_nil_of_append hs hlonger hrest
    subst hnil
    rw [List.append_nil] at hlonger
    exact ⟨(hname.injective (String.toList_inj.1 hlonger)).symm, hrest⟩
  · have hnil := hname.eq_nil_of_append ht hlonger hrest
    subst hnil
    rw [List.append_nil] at hlonger
    exact ⟨hname.injective (String.toList_inj.1 hlonger), hrest.symm⟩

/-- Names that show a word of their own between parentheses are legible. -/
theorem legible_parenthesized {word : π → String} (hword : Function.Injective word)
    (hparen : ∀ handle, ')' ∉ (word handle).toList) :
    Legible fun handle => "Predicate(" ++ word handle ++ ")" := by
  refine ⟨?_, ?_, ?_⟩
  · intro handle handle' h
    have hletters := congrArg String.toList h
    simp only [String.toList_append, List.append_assoc] at hletters
    have hwords := List.append_cancel_right (List.append_cancel_left hletters)
    exact hword (String.toList_inj.1 hwords)
  · intro handle
    exact ⟨'P', _, by rw [String.toList_append, String.toList_append]; rfl, by decide⟩
  · intro handle handle' c rest h
    simp only [String.toList_append, List.append_assoc] at h
    have hletters := List.append_cancel_left h
    have hall : ∀ handle, ∀ a ∈ (word handle).toList, (a != ')') = true := by
      intro handle a ha
      exact bne_iff_ne.2 fun hclose => hparen handle (hclose ▸ ha)
    obtain ⟨-, hclose⟩ := append_inj_of_all (hall handle') (hall handle) (by decide) (by decide)
      hletters
    simp at hclose

/-! ## The sign that opens a pattern -/

/-- The sign with which the text of a pattern opens, if it is not the name of a predicate. -/
def opening : Pattern π → Option Char
  | predicate _ => none
  | any => some 'A'
  | sequence _ => some '['
  | repetition child _ _ _ => opening child
  | alternation _ _ => some '('
  | anchor .atStart => some '^'
  | anchor .atEnd => some '$'

/-- The first letter of a text says with which sign its pattern opens. -/
theorem exists_letters_eq_cons (hname : Legible name) : (p : Pattern π) →
    ∃ c rest, p.letters name = c :: rest ∧ c ≠ ']' ∧
      p.opening = if c ∈ openings then some c else none
  | predicate handle => by
    obtain ⟨c, rest, hfirst, hc⟩ := hname.begins handle
    rw [List.mem_cons, not_or] at hc
    exact ⟨c, rest, hfirst, hc.1, (if_neg hc.2).symm⟩
  | any => ⟨'A', _, letters_any name, by decide, rfl⟩
  | sequence [] => ⟨'[', _, letters_sequence_nil name, by decide, rfl⟩
  | sequence (p :: ps) => ⟨'[', _, letters_sequence_cons name p ps, by decide, rfl⟩
  | alternation left right => ⟨'(', _, letters_alternation name left right, by decide, rfl⟩
  | anchor .atStart => ⟨'^', _, letters_atStart name, by decide, rfl⟩
  | anchor .atEnd => ⟨'$', _, letters_atEnd name, by decide, rfl⟩
  | repetition child min max greedy => by
    obtain ⟨c, rest, hfirst, hc, hopening⟩ := exists_letters_eq_cons hname child
    refine ⟨c, rest ++ Quantifier.letters ⟨min, max, greedy⟩, ?_, hc, hopening⟩
    rw [letters_repetition, hfirst, List.cons_append]

/-- Patterns with the same text open with the same sign. -/
theorem opening_eq_of_letters (hname : Legible name) {p q : Pattern π} {s t : List Char}
    (h : p.letters name ++ s = q.letters name ++ t) : p.opening = q.opening := by
  obtain ⟨c, rest, hp, -, hopening⟩ := exists_letters_eq_cons hname p
  obtain ⟨c', rest', hq, -, hopening'⟩ := exists_letters_eq_cons hname q
  rw [hp, hq, List.cons_append, List.cons_append] at h
  rw [hopening, hopening', (List.cons.inj h).1]

/-- No pattern opens with the bracket that closes a list. -/
theorem letters_append_ne (hname : Legible name) (p : Pattern π) (s t : List Char) :
    ']' :: s ≠ p.letters name ++ t := by
  obtain ⟨c, rest, hp, hc, -⟩ := exists_letters_eq_cons hname p
  rw [hp, List.cons_append]
  intro h
  exact hc (List.cons.inj h).1.symm

/-- The patterns are of the same kind, and neither is a repetition. -/
inductive Akin : Pattern π → Pattern π → Prop where
  | predicate (handle handle' : π) : Akin (predicate handle) (predicate handle')
  | any : Akin any any
  | sequence (children children' : List (Pattern π)) : Akin (sequence children) (sequence children')
  | alternation (left right left' right' : Pattern π) :
    Akin (alternation left right) (alternation left' right')
  | anchor (condition : Anchor) : Akin (anchor condition) (anchor condition)

/-- The sign says of which kind a bare pattern is. -/
theorem akin_of_opening {p q : Pattern π} (hp : p.IsBare) (hq : q.IsBare)
    (h : p.opening = q.opening) : p.Akin q := by
  cases p with
  | repetition child min max greedy => exact absurd rfl (hp child min max greedy)
  | anchor condition =>
    cases q with
    | repetition child min max greedy => exact absurd rfl (hq child min max greedy)
    | anchor condition' =>
      cases condition <;> cases condition' <;> simp [opening] at h
      · exact .anchor .atStart
      · exact .anchor .atEnd
    | _ => cases condition <;> simp [opening] at h
  | _ =>
    cases q with
    | repetition child min max greedy => exact absurd rfl (hq child min max greedy)
    | anchor condition' => cases condition' <;> simp [opening] at h
    | _ =>
      simp [opening] at h <;> constructor

/-! ## Reading -/

theorem beginsIn_furtherLetters (ps : List (Pattern π)) (s : List Char) :
    BeginsIn separators (furtherLetters name ps ++ ']' :: s) := by
  cases ps with
  | nil => exact beginsIn_cons.2 (by decide)
  | cons p ps => exact beginsIn_cons.2 (by decide)

/-- If the bare pattern can be read, then the whole pattern can. -/
theorem letters_inj_of_bare {p q : Pattern π} {s t : List Char}
    (hbare : ∀ s t, BeginsIn marks s → BeginsIn marks t →
      p.bare.letters name ++ s = q.bare.letters name ++ t → p.bare = q.bare ∧ s = t)
    (hs : BeginsIn separators s) (ht : BeginsIn separators t)
    (h : p.letters name ++ s = q.letters name ++ t) : p = q ∧ s = t := by
  rw [letters_eq_bare_append name p, letters_eq_bare_append name q, List.append_assoc,
    List.append_assoc] at h
  obtain ⟨hsame, hbehind⟩ := hbare _ _ (Quantifier.beginsIn_flatMap hs p.quantifiers)
    (Quantifier.beginsIn_flatMap ht q.quantifiers) h
  obtain ⟨hquantifiers, hrest⟩ := Quantifier.flatMap_letters_inj hs ht hbehind
  refine ⟨?_, hrest⟩
  rw [← quantified_bare p, ← quantified_bare q, hsame, hquantifiers]

mutual
/-- **A bare pattern** is read in one way, whatever stands behind it. -/
theorem bare_inj (hname : Legible name) : (p r : Pattern π) → r.IsBare → (s t : List Char) →
    BeginsIn marks s → BeginsIn marks t → p.bare.letters name ++ s = r.letters name ++ t →
    p.bare = r ∧ s = t
  -- The first letter says what kind of pattern the other text is of. Then both texts are
  -- taken apart in the same places, from the left to the right.
  | predicate handle, r, hr, s, t, hs, ht, h => by
    cases akin_of_opening (isBare_bare (predicate handle)) hr (opening_eq_of_letters hname h) with
    | predicate _ handle' =>
      obtain ⟨rfl, hrest⟩ := hname.append_inj hs ht h
      exact ⟨rfl, hrest⟩
  | any, r, hr, s, t, hs, ht, h => by
    cases akin_of_opening (isBare_bare any) hr (opening_eq_of_letters hname h) with
    | any => exact ⟨rfl, List.append_cancel_left h⟩
  | anchor condition, r, hr, s, t, hs, ht, h => by
    cases akin_of_opening (isBare_bare (anchor condition)) hr (opening_eq_of_letters hname h) with
    | anchor _ => exact ⟨rfl, List.append_cancel_left h⟩
  | alternation left right, r, hr, s, t, hs, ht, h => by
    cases akin_of_opening (isBare_bare (alternation left right)) hr
      (opening_eq_of_letters hname h) with
    | alternation _ _ left' right' =>
      simp only [bare, letters_alternation, List.cons_append, List.append_assoc, List.cons.injEq,
        true_and] at h
      obtain ⟨rfl, hright⟩ := letters_inj_of_bare (q := left')
        (bare_inj hname left left'.bare (isBare_bare left')) (beginsIn_cons.2 (by decide))
        (beginsIn_cons.2 (by decide)) h
      obtain ⟨rfl, hrest⟩ := letters_inj_of_bare (q := right')
        (bare_inj hname right right'.bare (isBare_bare right')) (beginsIn_cons.2 (by decide))
        (beginsIn_cons.2 (by decide)) (List.cons.inj hright).2
      exact ⟨rfl, (List.cons.inj hrest).2⟩
  | sequence [], r, hr, s, t, hs, ht, h => by
    cases akin_of_opening (isBare_bare (sequence [])) hr (opening_eq_of_letters hname h) with
    | sequence _ children' =>
      cases children' with
      | nil => exact ⟨rfl, List.append_cancel_left h⟩
      | cons q qs =>
        -- No pattern begins with a bracket that closes.
        simp only [bare, letters_sequence_nil, letters_sequence_cons, List.cons_append,
          List.nil_append, List.append_assoc, List.cons.injEq, true_and] at h
        exact absurd h (letters_append_ne hname q s _)
  | sequence (p :: ps), r, hr, s, t, hs, ht, h => by
    cases akin_of_opening (isBare_bare (sequence (p :: ps))) hr (opening_eq_of_letters hname h) with
    | sequence _ children' =>
      cases children' with
      | nil =>
        simp only [bare, letters_sequence_nil, letters_sequence_cons, List.cons_append,
          List.nil_append, List.append_assoc, List.cons.injEq, true_and] at h
        exact absurd h.symm (letters_append_ne hname p t _)
      | cons q qs =>
        simp only [bare, letters_sequence_cons, List.cons_append, List.nil_append,
          List.append_assoc, List.cons.injEq, true_and] at h
        obtain ⟨rfl, hfurther⟩ := letters_inj_of_bare (q := q)
          (bare_inj hname p q.bare (isBare_bare q)) (beginsIn_furtherLetters ps s)
          (beginsIn_furtherLetters qs t) h
        obtain ⟨rfl, hrest⟩ := further_inj hname ps qs s t hfurther
        exact ⟨rfl, hrest⟩
  | repetition child _ _ _, r, hr, s, t, hs, ht, h => bare_inj hname child r hr s t hs ht h

theorem further_inj (hname : Legible name) : (ps qs : List (Pattern π)) → (s t : List Char) →
    furtherLetters name ps ++ ']' :: s = furtherLetters name qs ++ ']' :: t → ps = qs ∧ s = t
  | [], [], s, t, h => ⟨rfl, (List.cons.inj h).2⟩
  | [], q :: qs, s, t, h => by simp [furtherLetters] at h
  | p :: ps, [], s, t, h => by simp [furtherLetters] at h
  | p :: ps, q :: qs, s, t, h => by
    simp only [furtherLetters, List.flatMap_cons, List.cons_append, List.append_assoc,
      List.cons.injEq, true_and] at h
    obtain ⟨rfl, hfurther⟩ := letters_inj_of_bare (q := q)
      (bare_inj hname p q.bare (isBare_bare q)) (beginsIn_furtherLetters ps s)
      (beginsIn_furtherLetters qs t) h
    obtain ⟨rfl, hrest⟩ := further_inj hname ps qs s t hfurther
    exact ⟨rfl, hrest⟩
end

/-- The number of a criterion is a word, and the word is its own. -/
theorem legible_criterionName : Legible criterionName := by
  have hword : Function.Injective fun handle : Nat => "#" ++ toString handle := by
    intro handle handle' h
    have hletters := congrArg String.toList h
    simp only [String.toList_append] at hletters
    exact digits_inj (List.append_cancel_left hletters)
  have hparen : ∀ handle : Nat, ')' ∉ ("#" ++ toString handle).toList := by
    intro handle
    rw [String.toList_append, List.mem_append, not_or]
    refine ⟨by decide, fun hclose => ?_⟩
    exact absurd (isDigit_of_mem_digits _ hclose) (by decide)
  have hname : criterionName = fun handle => "Predicate(" ++ ("#" ++ toString handle) ++ ")" := by
    funext handle
    apply String.toList_inj.1
    simp [criterionName, String.toList_append]
  rw [hname]
  exact legible_parenthesized hword hparen

/-- **The text of a pattern says which pattern it is.** Patterns with the same text are the
same tree: the same nodes with the same children in the same order, the same bounds and
preferences, and the same predicates at the same places. This holds of the names that show the
number of a criterion, of all names that show a word of their own in parentheses, and of any
others that are legible. -/
theorem text_injective :
    Function.Injective (text criterionName) ∧
      (∀ {π : Type} {word : π → String}, Function.Injective word →
        (∀ handle, ')' ∉ (word handle).toList) →
          Function.Injective (text fun handle => "Predicate(" ++ word handle ++ ")")) ∧
      ∀ {π : Type} {name : π → String}, Legible name → Function.Injective (text name) := by
  have hread : ∀ {π : Type} {name : π → String}, Legible name → Function.Injective (text name) := by
    intro π name hname p q h
    have hletters : p.letters name ++ [] = q.letters name ++ [] := by
      rw [letters, letters, h]
    exact (letters_inj_of_bare (bare_inj hname p q.bare (isBare_bare q)) (beginsIn_nil _)
      (beginsIn_nil _) hletters).1
  exact ⟨hread legible_criterionName,
    fun hword hparen => hread (legible_parenthesized hword hparen), hread⟩

/-- It is told apart which one of two stacked repetitions is lazy. -/
theorem text_injective_stacked :
    Legible criterionName ∧
      ((predicate 1).star.lazily.star).text criterionName ≠
        ((predicate 1).star.star.lazily).text criterionName := by
  refine ⟨legible_criterionName, fun h => ?_⟩
  have hsame := text_injective.2.2 legible_criterionName h
  simp [star, repeated, lazily] at hsame

end Pattern

end Motif
