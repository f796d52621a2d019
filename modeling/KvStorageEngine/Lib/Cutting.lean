import KvStorageEngine.Lib.LineFraming
import Mathlib.Data.List.DropRight

/-!
# `Lib.Cutting` — cutting and trimming

A list can be cut at the first occurrence of an element, and trimmed. What is trimmed is given by a set of elements
(`strip`), or by a set of words (`trimWords`), as where a white space character takes several bytes.

A list that has nothing to strip is `Bare`; stripping gives a bare list and leaves bare lists alone (`strip_eq_self_iff`).
Trimming words at the end gives a list none of them is at the end of, and changes no other (`trimRight_eq_self_iff`).
-/

namespace Cutting

variable {α : Type*}

section cut

variable [DecidableEq α]

/-- What is in front of the first `c`, and what is behind it. -/
def cut (c : α) (l : List α) : Option (List α × List α) := LineFraming.takeLine (· = c) l

theorem cut_append {c : α} {l : List α} (h : c ∉ l) (r : List α) : cut c (l ++ c :: r) = some (l, r) := by
  have hl : ∀ a ∈ l, (!decide (a = c)) = true := by
    intro a ha
    have hne : a ≠ c := fun he => h (he ▸ ha)
    simpa using hne
  unfold cut LineFraming.takeLine
  rw [List.dropWhile_append_of_pos hl, List.takeWhile_append_of_pos hl]
  simp

theorem cut_eq_none_iff {c : α} {l : List α} : cut c l = none ↔ c ∉ l := by
  constructor
  · intro h hc
    have := LineFraming.takeLine_eq_none h c hc
    simp at this
  · intro h
    cases hcut : cut c l with
    | none => rfl
    | some p =>
        obtain ⟨e, rfl, -, he⟩ := LineFraming.takeLine_eq_some hcut
        exact absurd (by simpa using Or.inr (Or.inl (of_decide_eq_true he).symm)) h

theorem cut_eq_some_iff {c : α} {l a r : List α} : cut c l = some (a, r) ↔ l = a ++ c :: r ∧ c ∉ a := by
  constructor
  · intro h
    obtain ⟨e, hl, ha, he⟩ := LineFraming.takeLine_eq_some h
    obtain rfl : e = c := of_decide_eq_true he
    exact ⟨hl, fun hc => absurd (ha e hc) (by simp)⟩
  · rintro ⟨rfl, ha⟩
    exact cut_append ha r

end cut

/-! ## Elements -/

/-- Without the elements at both ends that satisfy `p`. -/
def strip (p : α → Bool) (l : List α) : List α := (l.dropWhile p).rdropWhile p

/-- There is nothing to strip. -/
def Bare (p : α → Bool) (l : List α) : Prop :=
  (∀ a, l.head? = some a → p a = false) ∧ ∀ a, l.getLast? = some a → p a = false

instance [DecidableEq α] (p : α → Bool) (l : List α) : Decidable (Bare p l) :=
  match l with
  | [] => isTrue (by simp [Bare])
  | a :: l => decidable_of_iff (p a = false ∧ p ((a :: l).getLast (by simp)) = false) (by
      simp [Bare, List.getLast?_eq_some_getLast])

section strip

variable {p : α → Bool}

theorem dropWhile_eq_self {l : List α} (h : ∀ a, l.head? = some a → p a = false) : l.dropWhile p = l := by
  cases l with
  | nil => rfl
  | cons a l => simp [h a rfl]

theorem rdropWhile_eq_self {l : List α} (h : ∀ a, l.getLast? = some a → p a = false) : l.rdropWhile p = l := by
  rw [List.rdropWhile_eq_self_iff]
  intro hl
  simp [h _ (List.getLast?_eq_some_getLast hl)]

/-- A bare list is left alone. -/
theorem strip_of_bare {l : List α} (h : Bare p l) : strip p l = l := by
  unfold strip
  rw [dropWhile_eq_self h.1, rdropWhile_eq_self h.2]

/-- Only the two ends count. -/
theorem Bare.append_left {l r : List α} (hr : Bare p r) (hrne : r ≠ []) (hlne : l ≠ [])
    (hl : ∀ a, l.head? = some a → p a = false) : Bare p (l ++ r) := by
  constructor
  · intro a ha
    rw [List.head?_append_of_ne_nil _ hlne] at ha
    exact hl a ha
  · intro a ha
    rw [List.getLast?_append_of_ne_nil _ hrne] at ha
    exact hr.2 a ha

/-- What is stripped is bare. -/
theorem bare_strip (l : List α) : Bare p (strip p l) := by
  constructor
  · intro a ha
    -- the end is taken off behind the first element
    have hpre : strip p l <+: l.dropWhile p := List.rdropWhile_prefix p _
    have hhead : (l.dropWhile p).head? = some a := by
      obtain ⟨r, hr⟩ := hpre
      rw [← hr, List.head?_append, ha]
      rfl
    have := List.head?_dropWhile_not p l
    rw [hhead] at this
    simpa using this
  · intro a ha
    have hne : strip p l ≠ [] := fun h => by simp [h] at ha
    have hlast := List.rdropWhile_last_not p (l.dropWhile p) hne
    have hget : (strip p l).getLast hne = a := by
      rw [List.getLast?_eq_some_getLast hne] at ha
      exact Option.some.inj ha
    rw [← hget]
    simpa [strip] using hlast

theorem strip_eq_self_iff {l : List α} : strip p l = l ↔ Bare p l :=
  ⟨fun h => h ▸ bare_strip l, strip_of_bare⟩

theorem strip_eq_nil_iff {l : List α} : strip p l = [] ↔ ∀ a ∈ l, p a = true := by
  unfold strip
  rw [List.rdropWhile_eq_nil_iff]
  constructor
  · intro h
    have hnil : l.dropWhile p = [] := by
      by_contra hne
      have hhead := List.head_dropWhile_not p hne
      exact absurd (h _ (List.head_mem hne)) (by simp [hhead])
    exact List.dropWhile_eq_nil_iff.mp hnil
  · intro h a ha
    exact h a ((List.dropWhile_suffix p).subset ha)

/-- Nothing new comes in. -/
theorem mem_of_mem_strip {l : List α} {a : α} (h : a ∈ strip p l) : a ∈ l :=
  (List.dropWhile_suffix p).subset ((List.rdropWhile_prefix p _).subset h)

theorem rdropWhile_append_of_pos {l r : List α} (h : ∀ a ∈ r, p a = true) :
    (l ++ r).rdropWhile p = l.rdropWhile p := by
  unfold List.rdropWhile
  rw [List.reverse_append, List.dropWhile_append_of_pos fun a ha => h a (List.mem_reverse.mp ha)]

/-- What satisfies `p` does not matter at the end. -/
theorem strip_append_right {l r : List α} (h : ∀ a ∈ r, p a = true) : strip p (l ++ r) = strip p l := by
  unfold strip
  rw [List.dropWhile_append]
  split
  next hnil =>
    rw [List.isEmpty_iff.mp hnil, List.dropWhile_eq_nil_iff.mpr h]
  next => exact rdropWhile_append_of_pos h

theorem strip_rdropWhile (l : List α) : strip p (l.rdropWhile p) = strip p l := by
  have hall : ∀ a ∈ l.rtakeWhile p, p a = true := fun a => List.mem_rtakeWhile_imp
  conv_rhs => rw [← List.rdropWhile_append_rtakeWhile (p := p) (l := l)]
  exact (strip_append_right hall).symm

theorem strip_cons_of_pos {a : α} (h : p a = true) (l : List α) : strip p (a :: l) = strip p l := by
  unfold strip
  rw [List.dropWhile_cons_of_pos h]

/-- What is in front of something that stays, stays. -/
theorem rdropWhile_append {r : List α} (hr : strip p r ≠ []) (l : List α) :
    (l ++ r).rdropWhile p = l ++ r.rdropWhile p := by
  have hlast : ¬ (r.reverse.dropWhile p).isEmpty = true := by
    intro hnil
    apply hr
    rw [strip_eq_nil_iff]
    intro a ha
    exact List.dropWhile_eq_nil_iff.mp (List.isEmpty_iff.mp hnil) a (List.mem_reverse.mpr ha)
  unfold List.rdropWhile
  rw [List.reverse_append, List.dropWhile_append, if_neg hlast, List.reverse_append, List.reverse_reverse]

/-- Behind a bare list, the rest is stripped at its end only. -/
theorem strip_append {l r : List α} (hl : Bare p l) (hne : l ≠ []) (hr : strip p r ≠ []) :
    strip p (l ++ r) = l ++ r.rdropWhile p := by
  have hhead : (l ++ r).dropWhile p = l ++ r := by
    apply dropWhile_eq_self
    intro a ha
    apply hl.1
    rwa [List.head?_append_of_ne_nil _ hne] at ha
  unfold strip
  rw [hhead, rdropWhile_append hr]

/-- **What stripping leaves** is the bare middle of the list. -/
theorem strip_eq_iff {l t : List α} : strip p l = t ↔
    ∃ lead trail, l = lead ++ t ++ trail ∧ (∀ a ∈ lead, p a = true) ∧ (∀ a ∈ trail, p a = true) ∧ Bare p t := by
  constructor
  · rintro rfl
    refine ⟨l.takeWhile p, (l.dropWhile p).rtakeWhile p, ?_, fun a => List.mem_takeWhile_imp,
      fun a => List.mem_rtakeWhile_imp, bare_strip l⟩
    unfold strip
    rw [List.append_assoc, List.rdropWhile_append_rtakeWhile, List.takeWhile_append_dropWhile]
  · rintro ⟨lead, trail, rfl, hlead, htrail, hbare⟩
    rw [strip_append_right htrail]
    induction lead with
    | nil => exact strip_of_bare hbare
    | cons a lead ih =>
        obtain ⟨ha, hlead⟩ := List.forall_mem_cons.mp hlead
        rw [List.cons_append, strip_cons_of_pos ha, ih hlead]

end strip

/-! ## Words -/

section trim

variable [DecidableEq α]

/-- Without one word at the front, if there is one. -/
def dropWord (words : List (List α)) (l : List α) : Option (List α) :=
  (words.find? (·.isPrefixOf l)).map fun w => l.drop w.length

/-- Without `fuel` words at the front, if there are as many. -/
def dropWords (words : List (List α)) : Nat → List α → List α
  | 0, l => l
  | fuel + 1, l =>
    match dropWord words l with
    | some r => dropWords words fuel r
    | none => l

/-- Without words at the front. -/
def trimLeft (words : List (List α)) (l : List α) : List α := dropWords words l.length l

/-- Without words at the end. -/
def trimRight (words : List (List α)) (l : List α) : List α := (trimLeft (words.map List.reverse) l.reverse).reverse

/-- Without words at both ends. -/
def trimWords (words : List (List α)) (l : List α) : List α := trimRight words (trimLeft words l)

variable {words : List (List α)}

theorem dropWord_eq_none_iff {l : List α} : dropWord words l = none ↔ ∀ w ∈ words, ¬ w <+: l := by
  unfold dropWord
  simp [List.find?_eq_none]

theorem dropWord_eq_some {l r : List α} (h : dropWord words l = some r) : ∃ w ∈ words, l = w ++ r := by
  obtain ⟨w, hw, rfl⟩ := Option.map_eq_some_iff.mp h
  have hpre : w.isPrefixOf l = true := List.find?_some (p := fun v : List α => v.isPrefixOf l) hw
  obtain ⟨r, rfl⟩ := List.isPrefixOf_iff_prefix.mp hpre
  exact ⟨w, List.mem_of_find?_eq_some hw, by rw [List.drop_left]⟩

theorem dropWords_suffix (fuel : Nat) (l : List α) : dropWords words fuel l <:+ l := by
  induction fuel generalizing l with
  | zero => exact List.suffix_refl l
  | succ fuel ih =>
      rw [dropWords]
      split
      next r hr =>
        obtain ⟨w, -, rfl⟩ := dropWord_eq_some hr
        exact (ih r).trans (List.suffix_append w r)
      next => exact List.suffix_refl l

theorem length_lt_of_dropWord (hne : ∀ w ∈ words, w ≠ []) {l r : List α} (h : dropWord words l = some r) :
    r.length < l.length := by
  obtain ⟨w, hw, rfl⟩ := dropWord_eq_some h
  have := List.length_pos_iff.mpr (hne w hw)
  rw [List.length_append]
  omega

/-- Words are not empty, so a list has no more of them at its front than elements. -/
theorem dropWords_congr (hne : ∀ w ∈ words, w ≠ []) {fuel fuel' : Nat} {l : List α} (h : l.length ≤ fuel)
    (h' : l.length ≤ fuel') : dropWords words fuel l = dropWords words fuel' l := by
  have hnil : dropWord words ([] : List α) = none :=
    dropWord_eq_none_iff.mpr fun w hw hpre => hne w hw (List.prefix_nil.mp hpre)
  have hall : ∀ fuel, dropWords words fuel ([] : List α) = [] := by
    intro fuel
    cases fuel with
    | zero => rfl
    | succ fuel => rw [dropWords, hnil]
  induction fuel generalizing l fuel' with
  | zero =>
      obtain rfl := List.length_eq_zero_iff.mp (Nat.le_zero.mp h)
      rw [hall, hall]
  | succ fuel ih =>
      cases fuel' with
      | zero =>
          obtain rfl := List.length_eq_zero_iff.mp (Nat.le_zero.mp h')
          rw [hall, hall]
      | succ fuel' =>
          rw [dropWords, dropWords]
          cases hdrop : dropWord words l with
          | none => rfl
          | some r =>
              have hlt := length_lt_of_dropWord hne hdrop
              exact ih (by omega) (by omega)

theorem trimLeft_of_dropWord (hne : ∀ w ∈ words, w ≠ []) {l r : List α} (h : dropWord words l = some r) :
    trimLeft words l = trimLeft words r := by
  have hlt := length_lt_of_dropWord hne h
  obtain ⟨n, hn⟩ : ∃ n, l.length = n + 1 := ⟨l.length - 1, by omega⟩
  unfold trimLeft
  rw [hn, dropWords, h]
  exact dropWords_congr hne (by omega) (Nat.le_refl _)

theorem trimLeft_eq_self_iff (hne : ∀ w ∈ words, w ≠ []) {l : List α} :
    trimLeft words l = l ↔ ∀ w ∈ words, ¬ w <+: l := by
  rw [← dropWord_eq_none_iff]
  cases hdrop : dropWord words l with
  | none =>
      refine iff_of_true ?_ rfl
      unfold trimLeft
      cases l with
      | nil => rfl
      | cons a l => rw [List.length_cons, dropWords, hdrop]
  | some r =>
      refine iff_of_false (?_) (by simp)
      intro heq
      have hlt := length_lt_of_dropWord hne hdrop
      have hsuffix : dropWords words r.length r <:+ r := dropWords_suffix r.length r
      have hle := hsuffix.length_le
      rw [trimLeft_of_dropWord hne hdrop] at heq
      rw [← heq] at hlt
      unfold trimLeft at hlt
      omega

omit [DecidableEq α] in
theorem reverse_ne_nil (hne : ∀ w ∈ words, w ≠ []) : ∀ w ∈ words.map List.reverse, w ≠ [] := by
  intro w hw
  obtain ⟨v, hv, rfl⟩ := List.mem_map.mp hw
  simpa using hne v hv

theorem trimRight_prefix (l : List α) : trimRight words l <+: l := by
  have h : trimLeft (words.map List.reverse) l.reverse <:+ l.reverse := dropWords_suffix _ _
  exact List.reverse_suffix.mp (by simpa [trimRight, trimLeft] using h)

/-- A list that ends in none of the words is left alone, and no other is. -/
theorem trimRight_eq_self_iff (hne : ∀ w ∈ words, w ≠ []) {l : List α} :
    trimRight words l = l ↔ ∀ w ∈ words, ¬ w <:+ l := by
  have h := trimLeft_eq_self_iff (reverse_ne_nil hne) (l := l.reverse)
  rw [trimRight, List.reverse_eq_iff, h]
  simp only [List.forall_mem_map, List.reverse_prefix]

/-- A word at the end is taken off, if it is the only one there. -/
theorem trimRight_append (hne : ∀ w ∈ words, w ≠ []) {w : List α} (hw : w ∈ words) {l : List α}
    (hall : ∀ v ∈ words, v <:+ l ++ w → v = w) : trimRight words (l ++ w) = trimRight words l := by
  have hdrop : dropWord (words.map List.reverse) (l ++ w).reverse = some l.reverse := by
    cases hdrop : dropWord (words.map List.reverse) (l ++ w).reverse with
    | none =>
        have := dropWord_eq_none_iff.mp hdrop w.reverse (List.mem_map_of_mem hw)
        exact absurd (by rw [List.reverse_append]; exact List.prefix_append _ _) this
    | some r =>
        obtain ⟨u, hu, hr⟩ := dropWord_eq_some hdrop
        obtain ⟨v, hv, rfl⟩ := List.mem_map.mp hu
        have hsuffix : v <:+ l ++ w := by
          rw [← List.reverse_prefix, hr]
          exact List.prefix_append _ _
        obtain rfl := hall v hv hsuffix
        rw [List.reverse_append] at hr
        rw [List.append_cancel_left hr]
  unfold trimRight
  rw [trimLeft_of_dropWord (reverse_ne_nil hne) hdrop]

end trim

end Cutting
