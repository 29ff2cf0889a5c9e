import Mathlib.Data.List.TakeWhile
import P2Pearl.Data.Machine

/-!
Lines of a stream that arrives in pieces.

* `readline`: the next line of what has arrived, up to a separator, if it is not too long.
* `eq_of_readline`: a line is what stands in front of the rest.
* `readline_append`: a line that is found stays what it is, whatever else arrives.
* `readline_line`, `readline_of_prefix`: what is found where a line has arrived, or a part of it.
* `completeLines`: the lines of a list; `completeLines_flatten`: of what is put together from lines.
-/

namespace P2Pearl

/-- What a reader of lines finds. -/
inductive Found (α : Type) where
  | wait
  | overrun
  | line (line rest : List α)

variable {α : Type} [DecidableEq α]

/-- The next line of a buffer, with its separator.  Before it comes a line is too long when more
than the limit has arrived of it; at the end of the stream what is left is the last line. -/
def readline (sep : α) (limit : ℕ) (eof : Bool) (buffer : List α) : Found α :=
  let front := buffer.takeWhile (· ≠ sep)
  if limit < front.length then .overrun
  else
    match buffer.dropWhile (· ≠ sep) with
    | c :: rest => .line (front ++ [c]) rest
    | [] => if eof then .line front [] else .wait

/-- Where a list is cut before its end, a longer one is cut as well. -/
lemma span_append {β : Type} {p : β → Bool} {l : List β} (h : l.dropWhile p ≠ []) (t : List β) :
    (l ++ t).takeWhile p = l.takeWhile p ∧ (l ++ t).dropWhile p = l.dropWhile p ++ t := by
  have hlen : (l.takeWhile p).length ≠ l.length := fun he => h (by
    have hsplit := congrArg List.length (List.takeWhile_append_dropWhile (p := p) (l := l))
    rw [List.length_append] at hsplit
    exact List.length_eq_zero_iff.mp (by omega))
  constructor
  · rw [List.takeWhile_append, if_neg hlen]
  · rw [List.dropWhile_append, if_neg (by simpa using h)]

section Readline

variable {sep : α} {limit : ℕ} {eof : Bool} {buffer line rest : List α}

/-- A line is what stands in front of the rest. -/
lemma eq_of_readline (h : readline sep limit eof buffer = .line line rest) :
    buffer = line ++ rest := by
  have hsplit := List.takeWhile_append_dropWhile (p := (· ≠ sep)) (l := buffer)
  rw [readline] at h
  cases hdrop : buffer.dropWhile (· ≠ sep) with
  | nil =>
      rw [hdrop] at h hsplit
      split_ifs at h
      cases h
      exact hsplit.symm
  | cons c tail =>
      rw [hdrop] at h hsplit
      dsimp only at h
      split_ifs at h
      cases h
      rw [List.append_assoc]
      exact hsplit.symm

/-- A line that is found before the end of the stream is found in whatever buffer goes on. -/
lemma readline_append (h : readline sep limit false buffer = .line line rest) (more : List α) :
    readline sep limit eof (buffer ++ more) = .line line (rest ++ more) := by
  rw [readline] at h
  cases hdrop : buffer.dropWhile (· ≠ sep) with
  | nil =>
      rw [hdrop] at h
      dsimp only at h
      rw [if_neg Bool.false_ne_true] at h
      split_ifs at h
  | cons c tail =>
      obtain ⟨htake, hdrop'⟩ := span_append (by rw [hdrop]; exact List.cons_ne_nil _ _) more
      rw [hdrop] at h hdrop'
      dsimp only at h
      split_ifs at h with hlimit
      cases h
      rw [readline, htake, hdrop', if_neg hlimit]
      rfl

/-- A line that has arrived is found, if it is not too long. -/
lemma readline_line (hline : sep ∉ line) (hlimit : line.length ≤ limit) (rest : List α) :
    readline sep limit eof (line ++ sep :: rest) = .line (line ++ [sep]) rest := by
  have hne : ∀ c ∈ line, (decide (c ≠ sep)) = true := fun c hc =>
    decide_eq_true fun he => hline (he ▸ hc)
  rw [readline, List.takeWhile_append_of_pos hne, List.dropWhile_append_of_pos hne]
  simp [not_lt.mpr hlimit]

/-- Of a line that has not arrived a part is waited for, or left at the end of the stream. -/
lemma readline_of_prefix (hline : sep ∉ line) (hlimit : line.length ≤ limit)
    (hbuffer : buffer <+: line) :
    readline sep limit eof buffer = if eof then .line buffer [] else .wait := by
  have hne : ∀ c ∈ buffer, (decide (c ≠ sep)) = true := fun c hc =>
    decide_eq_true fun he => hline (he ▸ hbuffer.subset hc)
  have htake : buffer.takeWhile (· ≠ sep) = buffer := List.takeWhile_eq_self_iff.mpr hne
  have hdrop : buffer.dropWhile (· ≠ sep) = [] := List.dropWhile_eq_nil_iff.mpr hne
  rw [readline, htake, hdrop, if_neg (not_lt.mpr (hbuffer.length_le.trans hlimit))]

end Readline

/-! ### Complete lines -/

section Lines

variable {sep : α}

/-- The lines of a list, each with the separator at its end. -/
def completeLines (sep : α) : List α → List (List α)
  | [] => []
  | c :: rest =>
      if c = sep then [c] :: completeLines sep rest
      else
        match completeLines sep rest with
        | [] => []
        | line :: lines => (c :: line) :: lines

/-- What is one line. -/
def IsLine (sep : α) (line : List α) : Prop := ∃ front, sep ∉ front ∧ line = front ++ [sep]

lemma completeLines_cons {line : List α} (h : IsLine sep line) (rest : List α) :
    completeLines sep (line ++ rest) = line :: completeLines sep rest := by
  obtain ⟨front, hfront, rfl⟩ := h
  induction front with
  | nil => simp [completeLines]
  | cons c front ih =>
      have hc : c ≠ sep := fun he => hfront (he ▸ List.mem_cons_self)
      rw [List.cons_append, List.cons_append, completeLines, if_neg hc,
        ih fun hmem => hfront (List.mem_cons_of_mem _ hmem)]

lemma completeLines_eq_nil {rest : List α} (h : sep ∉ rest) : completeLines sep rest = [] := by
  induction rest with
  | nil => rfl
  | cons c rest ih =>
      have hc : c ≠ sep := fun he => h (he ▸ List.mem_cons_self)
      rw [completeLines, if_neg hc, ih fun hmem => h (List.mem_cons_of_mem _ hmem)]

lemma completeLines_flatten {lines : List (List α)} (h : ∀ line ∈ lines, IsLine sep line)
    (rest : List α) :
    completeLines sep (lines.flatten ++ rest) = lines ++ completeLines sep rest := by
  induction lines with
  | nil => rfl
  | cons line lines ih =>
      rw [List.flatten_cons, List.append_assoc, completeLines_cons (h line List.mem_cons_self),
        ih fun l hl => h l (List.mem_cons_of_mem _ hl), List.cons_append]

variable {limit : ℕ} {eof : Bool} {buffer line rest : List α}

/-- A line that is found with its separator has it at its end only. -/
lemma isLine_of_readline (h : readline sep limit eof buffer = .line line rest) (hmem : sep ∈ line) :
    IsLine sep line := by
  have hfront : sep ∉ buffer.takeWhile (· ≠ sep) := fun hin => by
    simpa using List.mem_takeWhile_imp hin
  rw [readline] at h
  cases hdrop : buffer.dropWhile (· ≠ sep) with
  | nil =>
      rw [hdrop] at h
      dsimp only at h
      split_ifs at h
      cases h
      exact absurd hmem hfront
  | cons c tail =>
      rw [hdrop] at h
      dsimp only at h
      split_ifs at h
      cases h
      have hc := List.head?_dropWhile_not (· ≠ sep) buffer
      rw [hdrop] at hc
      obtain rfl : c = sep := by simpa using hc
      exact ⟨_, hfront, rfl⟩

/-- Where a line is waited for, there is no separator. -/
lemma notMem_of_readline_wait (h : readline sep limit eof buffer = .wait) : sep ∉ buffer := by
  rw [readline] at h
  cases hdrop : buffer.dropWhile (· ≠ sep) with
  | nil =>
      intro hmem
      simpa using List.dropWhile_eq_nil_iff.mp hdrop sep hmem
  | cons c tail =>
      rw [hdrop] at h
      dsimp only at h
      split_ifs at h

end Lines

end P2Pearl
