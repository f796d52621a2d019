import Mathlib.Data.List.TakeWhile

/-!
# `Lib.LineFraming` — lines of a stream that comes in pieces

A receiver appends what it gets to a buffer and takes complete lines off the front; `split` yields the complete lines of
a buffer and what is left behind the last one. What the elements of the stream are does not matter, only which of them
end a line.

Cutting the stream into pieces makes no difference (`split_append`, `foldl_feed`), and a stream of lines comes back as those
lines (`split_flatMap`).
-/

namespace LineFraming

variable {α : Type*} (sep : α → Bool)

/-- The complete lines, without their ends, and the rest. -/
def split : List α → List (List α) × List α
  | [] => ([], [])
  | a :: l =>
    if sep a then ([] :: (split l).1, (split l).2)
    else match split l with
      | ([], rest) => ([], a :: rest)
      | (line :: lines, rest) => ((a :: line) :: lines, rest)

/-- The first complete line and what is behind its end. -/
def takeLine (l : List α) : Option (List α × List α) :=
  match l.dropWhile (!sep ·) with
  | [] => none
  | _ :: rest => some (l.takeWhile (!sep ·), rest)

/-- A receiver that is given a stream piece by piece: the lines it has taken so far, and its buffer. -/
def feed (s : List (List α) × List α) (chunk : List α) : List (List α) × List α :=
  (s.1 ++ (split sep (s.2 ++ chunk)).1, (split sep (s.2 ++ chunk)).2)

variable {sep}

theorem split_cons_of_not {a : α} (h : sep a = false) (l : List α) :
    split sep (a :: l) = match split sep l with
      | ([], rest) => ([], a :: rest)
      | (line :: lines, rest) => ((a :: line) :: lines, rest) := by
  rw [split, h]
  rfl

/-- A piece without an end of line is in front of the first line. -/
theorem split_append_of_not {line : List α} (h : ∀ a ∈ line, sep a = false) (l : List α) :
    split sep (line ++ l) = match split sep l with
      | ([], rest) => ([], line ++ rest)
      | (line' :: lines, rest) => ((line ++ line') :: lines, rest) := by
  induction line with
  | nil =>
      rw [List.nil_append]
      rcases split sep l with ⟨_ | ⟨line', lines⟩, rest⟩ <;> rfl
  | cons a line ih =>
      obtain ⟨ha, hline⟩ := List.forall_mem_cons.mp h
      rw [List.cons_append, split_cons_of_not ha, ih hline]
      rcases split sep l with ⟨_ | ⟨line', lines⟩, rest⟩ <;> rfl

theorem split_of_not {l : List α} (h : ∀ a ∈ l, sep a = false) : split sep l = ([], l) := by
  have := split_append_of_not h []
  rw [List.append_nil] at this
  rw [this]
  simp [split]

theorem split_line {line : List α} (h : ∀ a ∈ line, sep a = false) {e : α} (he : sep e = true) (l : List α) :
    split sep (line ++ e :: l) = (line :: (split sep l).1, (split sep l).2) := by
  rw [split_append_of_not h, split, he]
  simp

/-- A stream has no end of line, or it begins with a line. -/
theorem line_induction {P : List α → Prop} (rest : ∀ l, (∀ a ∈ l, sep a = false) → P l)
    (line : ∀ line e l, (∀ a ∈ line, sep a = false) → sep e = true → P l → P (line ++ e :: l)) (l : List α) :
    P l := by
  -- the part `front` of the stream that has been looked at has no end of line
  suffices h : ∀ front : List α, (∀ a ∈ front, sep a = false) → P (front ++ l) from h [] (by simp)
  induction l with
  | nil =>
      intro front hfront
      rw [List.append_nil]
      exact rest front hfront
  | cons a l ih =>
      intro front hfront
      cases ha : sep a with
      | true => exact line front a l hfront ha (ih [] (by simp))
      | false =>
          have := ih (front ++ [a]) fun b hb => by
            rcases List.mem_append.mp hb with hb | hb
            · exact hfront b hb
            · rw [List.mem_singleton.mp hb]
              exact ha
          rwa [List.append_assoc] at this

/-- **Cutting a stream in two** makes no difference to its lines. -/
theorem split_append (a b : List α) :
    split sep (a ++ b) = ((split sep a).1 ++ (split sep ((split sep a).2 ++ b)).1,
      (split sep ((split sep a).2 ++ b)).2) := by
  induction a using @line_induction α sep with
  | rest l hl =>
      rw [split_of_not hl]
      rfl
  | line line e l hline he ih =>
      rw [List.append_assoc, List.cons_append, split_line hline he, ih, split_line hline he]
      rfl

/-- No end of line is left behind. -/
theorem not_sep_of_mem_rest (l : List α) : ∀ a ∈ (split sep l).2, sep a = false := by
  induction l using @line_induction α sep with
  | rest l hl =>
      rw [split_of_not hl]
      exact hl
  | line line e l hline he ih =>
      rw [split_line hline he]
      exact ih

/-- What is left is the end of the stream. -/
theorem rest_suffix (l : List α) : (split sep l).2 <:+ l := by
  induction l using @line_induction α sep with
  | rest l hl =>
      have hrest := split_of_not hl
      simp [hrest]
  | line line e l hline he ih =>
      rw [split_line hline he]
      exact (ih.trans (List.suffix_cons e l)).trans (List.suffix_append _ _)

/-- A line that is taken is the first one of the stream. -/
theorem takeLine_eq_some {l line rest : List α} (h : takeLine sep l = some (line, rest)) :
    ∃ e, l = line ++ e :: rest ∧ (∀ a ∈ line, sep a = false) ∧ sep e = true := by
  unfold takeLine at h
  split at h
  · exact absurd h (by simp)
  next e rest' hdrop =>
    obtain ⟨rfl, rfl⟩ := Prod.mk.inj (Option.some.inj h)
    refine ⟨e, ?_, fun a ha => by simpa using List.mem_takeWhile_imp ha, ?_⟩
    · rw [← hdrop, List.takeWhile_append_dropWhile]
    · have hne : l.dropWhile (!sep ·) ≠ [] := by rw [hdrop]; simp
      have := List.head_dropWhile_not (p := (!sep ·)) (l := l) hne
      simpa [hdrop] using this

theorem takeLine_eq_none {l : List α} (h : takeLine sep l = none) : ∀ a ∈ l, sep a = false := by
  unfold takeLine at h
  split at h
  next hdrop => simpa using List.dropWhile_eq_nil_iff.mp hdrop
  · exact absurd h (by simp)

theorem feed_append (s : List (List α) × List α) (a b : List α) :
    feed sep (feed sep s a) b = feed sep s (a ++ b) := by
  unfold feed
  rw [← List.append_assoc s.2, split_append (s.2 ++ a), List.append_assoc]

/-- **Any way of cutting a stream into pieces** makes no difference. -/
theorem foldl_feed {s : List (List α) × List α} (hs : ∀ a ∈ s.2, sep a = false) (chunks : List (List α)) :
    chunks.foldl (feed sep) s = feed sep s chunks.flatten := by
  induction chunks generalizing s with
  | nil =>
      unfold feed
      rw [List.flatten_nil, List.append_nil, split_of_not hs, List.append_nil]
      rfl
  | cons chunk chunks ih =>
      have hrest : ∀ a ∈ (feed sep s chunk).2, sep a = false := not_sep_of_mem_rest _
      rw [List.foldl_cons, ih hrest, feed_append, List.flatten_cons]

/-- A stream of lines. -/
theorem split_flatMap {ls : List (List α)} (h : ∀ l ∈ ls, ∀ a ∈ l, sep a = false) {e : α} (he : sep e = true) :
    split sep (ls.flatMap fun l => l ++ [e]) = (ls, []) := by
  induction ls with
  | nil => rfl
  | cons l ls ih =>
      obtain ⟨hl, hls⟩ := List.forall_mem_cons.mp h
      rw [List.flatMap_cons, List.append_assoc, List.singleton_append, split_line hl he, ih hls]

end LineFraming
