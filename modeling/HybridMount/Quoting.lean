import Mathlib.Data.List.Basic

/-! Texts in which one symbol quotes the next: how special symbols are quoted, and how a text
is split at the separators which are not quoted. -/

namespace Quoting

variable {α : Type}

/-- Every special symbol is quoted. -/
def escape (quote : α) (special : α → Bool) (text : List α) : List α :=
  text.flatMap fun a => if special a then [quote, a] else [a]

/-- A quoted symbol stands for itself. -/
def unescape [DecidableEq α] (quote : α) : List α → List α
  | [] => []
  | a :: rest =>
    if a = quote then
      match rest with
      | [] => []
      | b :: rest => b :: unescape quote rest
    else a :: unescape quote rest

/-- The pieces between the separators which are not quoted, with their quotes. -/
def splitUnquoted [DecidableEq α] (quote separator : α) : List α → List (List α)
  | [] => [[]]
  | a :: rest =>
    if a = quote then
      match rest with
      | [] => [[a]]
      | b :: rest => (splitUnquoted quote separator rest).modifyHead ([a, b] ++ ·)
    else if a = separator then [] :: splitUnquoted quote separator rest
    else (splitUnquoted quote separator rest).modifyHead (a :: ·)

/-- Every separator of the text is quoted, and so is what comes behind it. -/
inductive Shielded (quote separator : α) : List α → Prop
  | nil : Shielded quote separator []
  | plain {a : α} {text : List α} : a ≠ quote → a ≠ separator → Shielded quote separator text →
      Shielded quote separator (a :: text)
  | quoted (b : α) {text : List α} : Shielded quote separator text →
      Shielded quote separator (quote :: b :: text)

variable {quote separator : α} {special : α → Bool} {text text' : List α} {pieces : List (List α)}

theorem Shielded.append (h : Shielded quote separator text) (h' : Shielded quote separator text') :
    Shielded quote separator (text ++ text') := by
  induction h with
  | nil => exact h'
  | plain hq hs _ ih => exact .plain hq hs ih
  | quoted b _ ih => exact .quoted b ih

theorem shielded_of_not_mem (hq : quote ∉ text) (hs : separator ∉ text) : Shielded quote separator text := by
  induction text with
  | nil => exact .nil
  | cons a text ih =>
    simp only [List.mem_cons, not_or] at hq hs
    exact .plain (Ne.symm hq.1) (Ne.symm hs.1) (ih hq.2 hs.2)

theorem shielded_escape (hq : special quote = true) (hs : special separator = true) (text : List α) :
    Shielded quote separator (escape quote special text) := by
  induction text with
  | nil => exact .nil
  | cons a text ih =>
    rw [escape, List.flatMap_cons]
    cases ha : special a with
    | true =>
      rw [if_pos rfl]
      exact .quoted a ih
    | false =>
      rw [if_neg Bool.false_ne_true]
      refine .plain (fun heq => ?_) (fun heq => ?_) ih
      · rw [heq, hq] at ha
        cases ha
      · rw [heq, hs] at ha
        cases ha

theorem escape_of_plain (h : ∀ a ∈ text, special a = false) : escape quote special text = text := by
  induction text with
  | nil => rfl
  | cons a text ih =>
    rw [escape, List.flatMap_cons, h a List.mem_cons_self, if_neg Bool.false_ne_true]
    exact congrArg (a :: ·) (ih fun b hb => h b (List.mem_cons_of_mem _ hb))

theorem mem_escape {a : α} (h : a ∈ escape quote special text) : a = quote ∨ a ∈ text := by
  obtain ⟨b, hb, ha⟩ := List.mem_flatMap.mp h
  split at ha
  · rcases List.mem_cons.mp ha with rfl | ha
    · exact .inl rfl
    · exact .inr (List.mem_singleton.mp ha ▸ hb)
  · exact .inr (List.mem_singleton.mp ha ▸ hb)

theorem mem_intercalate {joint : List α} {a : α} (h : a ∈ joint.intercalate pieces) :
    a ∈ joint ∨ ∃ piece ∈ pieces, a ∈ piece := by
  induction pieces with
  | nil => cases h
  | cons piece pieces ih =>
    cases pieces with
    | nil =>
      rw [List.intercalate_singleton] at h
      exact .inr ⟨piece, List.mem_cons_self, h⟩
    | cons next pieces =>
      rw [List.intercalate_cons_cons, List.mem_append, List.mem_append] at h
      rcases h with (h | h) | h
      · exact .inr ⟨piece, List.mem_cons_self, h⟩
      · exact .inl h
      · rcases ih h with h | ⟨p, hp, h⟩
        · exact .inl h
        · exact .inr ⟨p, List.mem_cons_of_mem _ hp, h⟩

theorem Shielded.intercalate {joint : List α} (hjoint : Shielded quote separator joint)
    (h : ∀ piece ∈ pieces, Shielded quote separator piece) :
    Shielded quote separator (joint.intercalate pieces) := by
  induction pieces with
  | nil => exact .nil
  | cons piece pieces ih =>
    have hrest := ih fun p hp => h p (List.mem_cons_of_mem _ hp)
    have hpiece := h piece List.mem_cons_self
    cases pieces with
    | nil =>
      rw [List.intercalate_singleton]
      exact hpiece
    | cons next pieces =>
      rw [List.intercalate_cons_cons]
      exact (hpiece.append hjoint).append hrest

variable [DecidableEq α]

theorem unescape_plain {a : α} (h : a ≠ quote) (text : List α) :
    unescape quote (a :: text) = a :: unescape quote text := by
  cases text <;> simp [unescape, h]

theorem unescape_quoted (a : α) (text : List α) :
    unescape quote (quote :: a :: text) = a :: unescape quote text := by
  simp [unescape]

theorem splitUnquoted_plain {a : α} (hq : a ≠ quote) (hs : a ≠ separator) (text : List α) :
    splitUnquoted quote separator (a :: text) = (splitUnquoted quote separator text).modifyHead (a :: ·) := by
  cases text <;> simp [splitUnquoted, hq, hs]

theorem splitUnquoted_quoted (a : α) (text : List α) : splitUnquoted quote separator (quote :: a :: text) =
    (splitUnquoted quote separator text).modifyHead ([quote, a] ++ ·) := by
  simp [splitUnquoted]

theorem splitUnquoted_separator (hne : separator ≠ quote) (text : List α) :
    splitUnquoted quote separator (separator :: text) = [] :: splitUnquoted quote separator text := by
  cases text <;> simp [splitUnquoted, hne]

theorem unescape_escape (hq : special quote = true) (text : List α) :
    unescape quote (escape quote special text) = text := by
  induction text with
  | nil => rfl
  | cons a text ih =>
    rw [escape, List.flatMap_cons]
    cases ha : special a with
    | true =>
      rw [if_pos rfl]
      exact (unescape_quoted a _).trans (congrArg (a :: ·) ih)
    | false =>
      have hne : a ≠ quote := by
        intro heq
        rw [heq, hq] at ha
        cases ha
      rw [if_neg Bool.false_ne_true]
      exact (unescape_plain hne _).trans (congrArg (a :: ·) ih)

theorem unescape_of_not_mem (hq : quote ∉ text) : unescape quote text = text := by
  induction text with
  | nil => rfl
  | cons a text ih =>
    simp only [List.mem_cons, not_or] at hq
    rw [unescape_plain (Ne.symm hq.1), ih hq.2]

theorem splitUnquoted_append (hne : separator ≠ quote) (h : Shielded quote separator text) (rest : List α) :
    splitUnquoted quote separator (text ++ separator :: rest) = text :: splitUnquoted quote
      separator rest := by
  induction h with
  | nil => exact splitUnquoted_separator hne rest
  | plain hq hs _ ih =>
    rw [List.cons_append, splitUnquoted_plain hq hs, ih]
    rfl
  | quoted b _ ih =>
    rw [List.cons_append, List.cons_append, splitUnquoted_quoted, ih]
    rfl

theorem splitUnquoted_self (h : Shielded quote separator text) :
    splitUnquoted quote separator text = [text] := by
  induction h with
  | nil => rfl
  | plain hq hs _ ih =>
    rw [splitUnquoted_plain hq hs, ih]
    rfl
  | quoted b _ ih =>
    rw [splitUnquoted_quoted, ih]
    rfl

theorem splitUnquoted_intercalate (hne : separator ≠ quote) (hpieces : pieces ≠ [])
    (h : ∀ piece ∈ pieces, Shielded quote separator piece) :
    splitUnquoted quote separator ([separator].intercalate pieces) = pieces := by
  induction pieces with
  | nil => exact absurd rfl hpieces
  | cons piece pieces ih =>
    have hpiece := h piece List.mem_cons_self
    cases pieces with
    | nil => rw [List.intercalate_singleton, splitUnquoted_self hpiece]
    | cons next pieces =>
      rw [List.intercalate_cons_cons, List.append_assoc, List.singleton_append,
        splitUnquoted_append hne hpiece,
        ih (List.cons_ne_nil _ _) fun p hp => h p (List.mem_cons_of_mem _ hp)]

end Quoting
