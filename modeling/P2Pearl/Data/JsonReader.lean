import Mathlib.Data.List.TakeWhile
import P2Pearl.Data.JsonText
import P2Pearl.Data.LineReader
import P2Pearl.Data.OrderedMap

/-!
A reader of JSON texts.

* `Json.loads`: `json.loads` of a text, with the recursion limit and the values of floats as
  parameters; a text with a lone surrogate, which a `PyStr` cannot hold, is not read.
* `scanChars_append`, `scanItems_append`: fuel that is enough for a text is enough for a longer one.
* `Json.scanOnce_append`: a value that is read in front of a text is read in front of a longer one.
-/

namespace P2Pearl

namespace Json

/-! ### Texts -/

/-- White space. -/
def isSpace (c : Char) : Bool :=
  c.toNat = 0x20 ∨ c.toNat = 0x09 ∨ c.toNat = 0x0a ∨ c.toNat = 0x0d

/-- What is left behind white space. -/
def skipSpace (s : PyStr) : PyStr := s.dropWhile isSpace

/-- A code unit of four hexadecimal digits. -/
def scanUnit : PyStr → Option (ℕ × PyStr)
  | a :: b :: c :: d :: rest => do
      let a ← hexVal a
      let b ← hexVal b
      let c ← hexVal c
      let d ← hexVal d
      some (0x1000 * a + 0x100 * b + 0x10 * c + d, rest)
  | _ => none

/-- The character of one code unit, or of a surrogate pair. -/
def scanUnicode (s : PyStr) : Option (Char × PyStr) := do
  let (high, rest) ← scanUnit s
  if 0xd800 ≤ high ∧ high < 0xdc00 then
    match rest with
    | a :: b :: rest =>
        if a.toNat = 0x5c ∧ b = 'u' then
          let (low, rest) ← scanUnit rest
          if 0xdc00 ≤ low ∧ low < 0xe000 then
            some (Char.ofNat (0x10000 + (high - 0xd800) * 0x400 + (low - 0xdc00)), rest)
          else none
        else none
    | _ => none
  else if 0xdc00 ≤ high ∧ high < 0xe000 then none
  else some (Char.ofNat high, rest)

/-- The character an escape other than that of a code unit stands for. -/
def unescape (c : Char) : Option Char :=
  if c.toNat = 0x22 ∨ c.toNat = 0x5c ∨ c = '/' then some c
  else if c = 'b' then some (Char.ofNat 0x08)
  else if c = 't' then some (Char.ofNat 0x09)
  else if c = 'n' then some (Char.ofNat 0x0a)
  else if c = 'f' then some (Char.ofNat 0x0c)
  else if c = 'r' then some (Char.ofNat 0x0d)
  else none

/-- What stands behind a backslash. -/
def scanEscape : PyStr → Option (Char × PyStr)
  | [] => none
  | c :: rest =>
      if c = 'u' then scanUnicode rest else (unescape c).map fun x => (x, rest)

/-- A character between quotes. -/
def scanChar : PyStr → Option (Char × PyStr)
  | [] => none
  | c :: rest =>
      if c.toNat = 0x5c then scanEscape rest
      else if c.toNat < 0x20 then none
      else some (c, rest)

/-- A text up to its closing quote; every round takes a character. -/
def scanChars : ℕ → PyStr → Option (PyStr × PyStr)
  | fuel + 1, c :: rest =>
      if c.toNat = 0x22 then some ([], rest)
      else do
        let (x, rest) ← scanChar (c :: rest)
        let (text, rest) ← scanChars fuel rest
        some (x :: text, rest)
  | _, _ => none

/-- A text, from behind its opening quote. -/
def scanString (s : PyStr) : Option (PyStr × PyStr) := scanChars s.length s

/-! ### Numbers -/

/-- The digits in front of a text, and the rest of it. -/
def scanDigits (s : PyStr) : PyStr × PyStr := (s.takeWhile Char.isDigit, s.dropWhile Char.isDigit)

/-- A sign, if there is one. -/
def scanSign (plus : Bool) : PyStr → PyStr × PyStr
  | [] => ([], [])
  | c :: rest => if c = '-' ∨ plus ∧ c = '+' then ([c], rest) else ([], c :: rest)

/-- The digits of a whole number: a zero has none behind it. -/
def scanWhole : PyStr → PyStr × PyStr
  | [] => ([], [])
  | c :: rest => if c = '0' then ([c], rest) else scanDigits (c :: rest)

/-- A point with digits, if there is one. -/
def scanFraction : PyStr → PyStr × PyStr
  | [] => ([], [])
  | c :: rest =>
      if c = '.' ∧ (scanDigits rest).1 ≠ [] then (c :: (scanDigits rest).1, (scanDigits rest).2)
      else ([], c :: rest)

/-- An exponent, if there is one. -/
def scanExponent : PyStr → PyStr × PyStr
  | [] => ([], [])
  | c :: rest =>
      let (sign, tail) := scanSign true rest
      if (c = 'e' ∨ c = 'E') ∧ (scanDigits tail).1 ≠ [] then
        (c :: (sign ++ (scanDigits tail).1), (scanDigits tail).2)
      else ([], c :: rest)

/-- The longest text of digits that is made an integer. -/
def maxStrDigits : ℕ := 4300

/-- A number; the value of a float is that of its text. -/
def scanNumber (floatOf : PyStr → Option ℚ) (s : PyStr) : Option (Json × PyStr) :=
  let (sign, s) := scanSign false s
  let (whole, s) := scanWhole s
  let (fraction, s) := scanFraction s
  let (exponent, s) := scanExponent s
  if whole = [] then none
  else if fraction = [] ∧ exponent = [] then
    if maxStrDigits < whole.length then none
    else some (.int (if sign = [] then Nat.ofDigitChars 10 whole 0
      else -Nat.ofDigitChars 10 whole 0), s)
  else some (.float (floatOf (sign ++ whole ++ fraction ++ exponent)), s)

/-! ### Values -/

/-- The literals. -/
def literals : List (String × Json) :=
  [("null", .null), ("true", .bool true), ("false", .bool false), ("NaN", .float none),
    ("Infinity", .float none), ("-Infinity", .float none)]

/-- A literal. -/
def scanLiteral (s : PyStr) : Option (Json × PyStr) :=
  (literals.find? fun p => p.1.toList.isPrefixOf s).map fun p => (p.2, s.drop p.1.toList.length)

section Items

variable {α : Type} (item : PyStr → Option (α × PyStr))

/-- Items with commas between them, up to a bracket that closes; every round takes a character. -/
def scanItems (close : Char) : ℕ → PyStr → Option (List α × PyStr)
  | 0, _ => none
  | fuel + 1, s => do
      let (x, s) ← item s
      match skipSpace s with
      | [] => none
      | c :: rest =>
          if c = ',' then do
            let (xs, s) ← scanItems close fuel (skipSpace rest)
            some (x :: xs, s)
          else if c = close then some ([x], rest)
          else none

/-- Items from behind a bracket that opens. -/
def scanAll (close : Char) (s : PyStr) : Option (List α × PyStr) :=
  match skipSpace s with
  | [] => none
  | c :: rest =>
      if c = close then some ([], rest) else scanItems item close (c :: rest).length (c :: rest)

/-- A key and its value. -/
def scanField : PyStr → Option ((PyStr × α) × PyStr)
  | [] => none
  | c :: rest =>
      if c.toNat = 0x22 then do
        let (key, s) ← scanString rest
        match skipSpace s with
        | [] => none
        | c :: rest =>
            if c = ':' then do
              let (x, s) ← item (skipSpace rest)
              some ((key, x), s)
            else none
      else none

end Items

/-- A dictionary of pairs: the last value of a key counts, in the place of the first. -/
def ofPairs {α : Type} (pairs : List (PyStr × α)) : List (PyStr × α) :=
  pairs.foldl (fun l p => OrderedMap.setItems p.1 p.2 l) []

variable (floatOf : PyStr → Option ℚ)

/-- A value, in front of a text.  `depth` is what is left of the recursion limit. -/
def scanOnce : ℕ → PyStr → Option (Json × PyStr)
  | _, [] => none
  | depth, c :: rest =>
      if c.toNat = 0x22 then (scanString rest).map fun r => (.str r.1, r.2)
      else if c = '[' then
        match depth with
        | 0 => none
        | depth + 1 => (scanAll (scanOnce depth) ']' rest).map fun r => (.arr r.1, r.2)
      else if c = '{' then
        match depth with
        | 0 => none
        | depth + 1 =>
            (scanAll (scanField (scanOnce depth)) '}' rest).map fun r => (.obj (ofPairs r.1), r.2)
      else (scanNumber floatOf (c :: rest)).or (scanLiteral (c :: rest))

/-- `json.loads` of a text. -/
def loads (depth : ℕ) (s : PyStr) : Option Json :=
  match scanOnce floatOf depth (skipSpace s) with
  | some (x, rest) => if skipSpace rest = [] then some x else none
  | none => none

/-! ### Reading in front of a longer text -/

lemma scanUnit_append {s r : PyStr} {n : ℕ} (h : scanUnit s = some (n, r)) (t : PyStr) :
    scanUnit (s ++ t) = some (n, r ++ t) := by
  unfold scanUnit at h
  split at h
  · rename_i a b c d rest
    simp only [Option.bind_eq_bind, Option.bind_eq_some_iff, Option.some.injEq,
      Prod.mk.injEq] at h
    obtain ⟨a', ha, b', hb, c', hc, d', hd, rfl, rfl⟩ := h
    simp [scanUnit, ha, hb, hc, hd]
  · cases h

lemma scanUnicode_append {s r : PyStr} {x : Char} (h : scanUnicode s = some (x, r)) (t : PyStr) :
    scanUnicode (s ++ t) = some (x, r ++ t) := by
  rw [scanUnicode, Option.bind_eq_bind, Option.bind_eq_some_iff] at h
  obtain ⟨⟨high, rest⟩, hhigh, h⟩ := h
  rw [scanUnicode, scanUnit_append hhigh, Option.bind_eq_bind, Option.bind_some]
  dsimp only at h ⊢
  split_ifs at h ⊢ with hpair hlone
  · match rest, h with
    | a :: b :: rest, h =>
        simp only [List.cons_append] at h ⊢
        split_ifs at h ⊢ with hu
        obtain ⟨⟨low, rest'⟩, hlow, h⟩ := Option.bind_eq_some_iff.mp h
        rw [scanUnit_append hlow, Option.bind_some]
        dsimp only at h ⊢
        split_ifs at h ⊢ with hlows
        obtain ⟨rfl, rfl⟩ := Prod.mk.inj (Option.some.inj h)
        rfl
  · obtain ⟨rfl, rfl⟩ := Prod.mk.inj (Option.some.inj h)
    rfl

lemma scanChar_append {s r : PyStr} {x : Char} (h : scanChar s = some (x, r)) (t : PyStr) :
    scanChar (s ++ t) = some (x, r ++ t) := by
  cases s with
  | nil => cases h
  | cons c rest =>
      rw [scanChar] at h
      rw [List.cons_append, scanChar]
      split_ifs at h ⊢ with hslash hcontrol
      · cases rest with
        | nil => cases h
        | cons e rest =>
            rw [scanEscape] at h
            rw [List.cons_append, scanEscape]
            split_ifs at h ⊢ with hu
            · exact scanUnicode_append h t
            · obtain ⟨y, hy, he⟩ := Option.map_eq_some_iff.mp h
              obtain ⟨rfl, rfl⟩ := Prod.mk.inj he
              rw [hy]
              rfl
      · obtain ⟨rfl, rfl⟩ := Prod.mk.inj (Option.some.inj h)
        rfl

/-- Fuel that is enough for a text is enough for a longer one. -/
lemma scanChars_append {n m : ℕ} (hnm : n ≤ m) {s x r : PyStr}
    (h : scanChars n s = some (x, r)) (t : PyStr) : scanChars m (s ++ t) = some (x, r ++ t) := by
  induction n generalizing m s x with
  | zero => cases s <;> cases h
  | succ n ih =>
      obtain ⟨m, rfl⟩ := Nat.exists_eq_add_of_le' (Nat.one_le_of_lt hnm)
      cases s with
      | nil => cases h
      | cons c rest =>
          rw [scanChars] at h
          rw [List.cons_append, scanChars]
          split_ifs at h ⊢ with hquote
          · obtain ⟨rfl, rfl⟩ := Prod.mk.inj (Option.some.inj h)
            rfl
          · simp only [Option.bind_eq_bind, Option.bind_eq_some_iff, Option.some.injEq,
              Prod.mk.injEq, Prod.exists] at h
            obtain ⟨y, rest', hy, text, r', htext, rfl, rfl⟩ := h
            have hchar := scanChar_append hy t
            rw [List.cons_append] at hchar
            rw [hchar]
            simp [ih (Nat.le_of_succ_le_succ hnm) htext]

lemma scanString_append {s x r : PyStr} (h : scanString s = some (x, r)) (t : PyStr) :
    scanString (s ++ t) = some (x, r ++ t) :=
  scanChars_append (by simp) h t

/-! #### Numbers -/

lemma scanDigits_append {s : PyStr} (h : (scanDigits s).2 ≠ []) (t : PyStr) :
    scanDigits (s ++ t) = ((scanDigits s).1, (scanDigits s).2 ++ t) :=
  Prod.ext (span_append h t).1 (span_append h t).2

lemma scanSign_append {plus : Bool} {s : PyStr} (hs : s ≠ []) (t : PyStr) :
    scanSign plus (s ++ t) = ((scanSign plus s).1, (scanSign plus s).2 ++ t) := by
  obtain ⟨c, rest, rfl⟩ := List.exists_cons_of_ne_nil hs
  rw [List.cons_append, scanSign, scanSign]
  split_ifs <;> rfl

lemma scanWhole_append {s x r : PyStr} (h : scanWhole s = (x, r)) (hr : r ≠ []) (t : PyStr) :
    scanWhole (s ++ t) = (x, r ++ t) := by
  cases s with
  | nil => exact absurd (Prod.mk.inj h).2.symm hr
  | cons c rest =>
      rw [scanWhole] at h
      rw [List.cons_append, scanWhole]
      split_ifs at h ⊢ with hzero
      · obtain ⟨rfl, rfl⟩ := Prod.mk.inj h
        rfl
      · rw [← List.cons_append, scanDigits_append (by rwa [h]), h]

lemma scanFraction_append {s x r : PyStr} {d : Char} (h : scanFraction s = (x, d :: r))
    (hd : d ≠ '.') (t : PyStr) : scanFraction (s ++ t) = (x, d :: r ++ t) := by
  cases s with
  | nil => cases h
  | cons c rest =>
      rw [scanFraction] at h
      rw [List.cons_append, scanFraction]
      by_cases hpoint : c = '.'
      · split_ifs at h with hdigits
        · obtain ⟨rfl, hrest⟩ := Prod.mk.inj h
          rw [scanDigits_append (by simp [hrest]), if_pos hdigits, hrest]
        · obtain ⟨-, hcons⟩ := Prod.mk.inj h
          exact absurd ((List.cons.inj hcons).1.symm.trans hpoint) hd
      · rw [if_neg fun hboth => hpoint hboth.1] at h ⊢
        obtain ⟨rfl, hcons⟩ := Prod.mk.inj h
        rw [← hcons]
        rfl

lemma scanExponent_append {s x r : PyStr} {d : Char} (h : scanExponent s = (x, d :: r))
    (hd : d ≠ 'e' ∧ d ≠ 'E') (t : PyStr) : scanExponent (s ++ t) = (x, d :: r ++ t) := by
  cases s with
  | nil => cases h
  | cons c rest =>
      rw [scanExponent] at h
      rw [List.cons_append, scanExponent]
      dsimp only at h ⊢
      by_cases he : c = 'e' ∨ c = 'E'
      · split_ifs at h with hdigits
        · obtain ⟨rfl, hrest⟩ := Prod.mk.inj h
          have hne : rest ≠ [] := fun hnil => by
            rw [hnil] at hrest
            cases hrest
          rw [scanSign_append hne, scanDigits_append (by simp [hrest]), if_pos hdigits, hrest]
        · obtain ⟨-, hcons⟩ := Prod.mk.inj h
          obtain rfl := (List.cons.inj hcons).1
          exact absurd he (by simpa using hd)
      · rw [if_neg fun hboth => he hboth.1] at h ⊢
        obtain ⟨rfl, hcons⟩ := Prod.mk.inj h
        rw [← hcons]
        rfl

/-- What may stand behind a number: white space, a comma or a bracket that closes. -/
def isDelimiter (c : Char) : Bool := isSpace c ∨ c = ',' ∨ c = ']' ∨ c = '}'

/-- The head of a text, if there is one, is a delimiter. -/
def Delimited (s : PyStr) : Prop := ∀ c ∈ s.head?, isDelimiter c

lemma isDelimiter_ne {c : Char} (h : isDelimiter c) (d : Char) (hd : isDelimiter d = false) :
    c ≠ d := by
  rintro rfl
  exact absurd h (by simp [hd])

/-- The fraction ends before a point only where it has no digits. -/
lemma ne_point_of_scanExponent {s x r : PyStr} {d : Char} (h : scanExponent s = (x, d :: r))
    (hd : d ≠ '.') : ∃ e s', s = e :: s' ∧ e ≠ '.' := by
  cases s with
  | nil => cases h
  | cons e s' =>
      refine ⟨e, s', rfl, ?_⟩
      rintro rfl
      have hpoint : scanExponent ('.' :: s') = ([], '.' :: s') := by simp [scanExponent]
      rw [hpoint] at h
      exact hd (List.cons.inj (Prod.mk.inj h).2).1.symm

lemma scanNumber_append {floatOf : PyStr → Option ℚ} {s r : PyStr} {v : Json} {d : Char}
    (h : scanNumber floatOf s = some (v, d :: r)) (hd : isDelimiter d) (t : PyStr) :
    scanNumber floatOf (s ++ t) = some (v, d :: r ++ t) := by
  rw [scanNumber] at h
  rcases hsign : scanSign false s with ⟨sign, s₁⟩
  rcases hwhole : scanWhole s₁ with ⟨whole, s₂⟩
  rcases hfraction : scanFraction s₂ with ⟨fraction, s₃⟩
  rcases hexponent : scanExponent s₃ with ⟨exponent, s₄⟩
  simp only [hsign, hwhole, hfraction, hexponent] at h
  obtain rfl : s₄ = d :: r := by
    split_ifs at h
    all_goals exact (Prod.mk.inj (Option.some.inj h)).2
  obtain ⟨e, s₃, rfl, he⟩ :=
    ne_point_of_scanExponent hexponent (isDelimiter_ne hd _ (by decide))
  have h₂ : s₂ ≠ [] := fun hnil => by rw [hnil] at hfraction; cases hfraction
  have h₁ : s₁ ≠ [] := fun hnil => by
    rw [hnil] at hwhole
    exact h₂ (Prod.mk.inj hwhole).2.symm
  have h₀ : s ≠ [] := fun hnil => by
    rw [hnil] at hsign
    exact h₁ (Prod.mk.inj hsign).2.symm
  rw [scanNumber, scanSign_append h₀, hsign]
  dsimp only
  rw [scanWhole_append hwhole h₂]
  dsimp only
  rw [scanFraction_append hfraction he]
  dsimp only
  rw [scanExponent_append hexponent
    ⟨isDelimiter_ne hd _ (by decide), isDelimiter_ne hd _ (by decide)⟩]
  dsimp only
  split_ifs at h ⊢
  all_goals
    rw [← (Prod.mk.inj (Option.some.inj h)).1]

/-! #### Values -/

/-- A literal is read in front of any text, and is not a number. -/
lemma scanLiteral_append {p : String × Json} (hp : p ∈ literals) (r : PyStr)
    (floatOf : PyStr → Option ℚ) : scanLiteral (p.1.toList ++ r) = some (p.2, r)
      ∧ scanNumber floatOf (p.1.toList ++ r) = none := by
  simp only [literals, List.mem_cons, List.not_mem_nil, or_false] at hp
  rcases hp with rfl | rfl | rfl | rfl | rfl | rfl <;> exact ⟨rfl, rfl⟩

lemma exists_literal {s r : PyStr} {v : Json} (h : scanLiteral s = some (v, r)) :
    ∃ p ∈ literals, v = p.2 ∧ s = p.1.toList ++ r := by
  obtain ⟨p, hp, he⟩ := Option.map_eq_some_iff.mp h
  obtain ⟨rfl, rfl⟩ := Prod.mk.inj he
  have hpre : p.1.toList.isPrefixOf s := by simpa using List.find?_some hp
  obtain ⟨r, hr⟩ := List.isPrefixOf_iff_prefix.mp hpre
  exact ⟨p, List.mem_of_find?_eq_some hp, rfl, by rw [← hr, List.drop_left]⟩

/-- A value but a number, of which the next character may be a part. -/
def IsClosed : Json → Prop
  | .int _ | .float _ => False
  | _ => True

/-- What a scanner of items reads in front of a text, it reads in front of a longer one, where
something follows it. -/
def ReadsOn {α : Type} (item : PyStr → Option (α × PyStr)) : Prop :=
  item [] = none ∧ ∀ s x d r, item s = some (x, d :: r) → isDelimiter d → ∀ t,
    item (s ++ t) = some (x, d :: r ++ t)

section Items

variable {α : Type} {item : PyStr → Option (α × PyStr)}

lemma skipSpace_append {s : PyStr} (h : skipSpace s ≠ []) (t : PyStr) :
    skipSpace (s ++ t) = skipSpace s ++ t := (span_append h t).2

/-- In front of a delimiter stands a delimiter. -/
lemma delimited_of_skipSpace {s r : PyStr} {d : Char} (h : skipSpace s = d :: r)
    (hd : isDelimiter d) : ∃ c s', s = c :: s' ∧ isDelimiter c := by
  cases s with
  | nil => cases h
  | cons c s' =>
      refine ⟨c, s', rfl, ?_⟩
      rw [skipSpace, List.dropWhile_cons] at h
      split_ifs at h with hspace
      · simp [isDelimiter, hspace]
      · rw [(List.cons.inj h).1]; exact hd

lemma scanItems_append (hitem : ReadsOn item) {close : Char} (hclose : isDelimiter close)
    {n m : ℕ} (hnm : n ≤ m) {s r : PyStr} {xs : List α}
    (h : scanItems item close n s = some (xs, r)) (t : PyStr) :
    scanItems item close m (s ++ t) = some (xs, r ++ t) := by
  induction n generalizing m s xs with
  | zero => cases h
  | succ n ih =>
      obtain ⟨m, rfl⟩ := Nat.exists_eq_add_of_le' (Nat.one_le_of_lt hnm)
      simp only [scanItems, Option.bind_eq_bind, Option.bind_eq_some_iff, Prod.exists] at h
      obtain ⟨x, s₁, hx, h⟩ := h
      cases hskip : skipSpace s₁ with
      | nil => rw [hskip] at h; cases h
      | cons c rest =>
          rw [hskip] at h
          dsimp only at h
          have hdelim : isDelimiter c := by
            split_ifs at h with hcomma hc
            · rw [hcomma]; decide
            · rw [hc]; exact hclose
          obtain ⟨d, s₂, rfl, hd⟩ := delimited_of_skipSpace hskip hdelim
          have hskip' : skipSpace (d :: (s₂ ++ t)) = c :: (rest ++ t) := by
            rw [← List.cons_append, skipSpace_append (by rw [hskip]; exact List.cons_ne_nil _ _),
              hskip, List.cons_append]
          simp only [scanItems, hitem.2 s x d s₂ hx hd t, Option.bind_eq_bind, Option.bind_some,
            List.cons_append, hskip']
          split_ifs at h ⊢ with hcomma hc
          · simp only [Option.bind_eq_some_iff, Option.some.injEq, Prod.mk.injEq,
              Prod.exists] at h
            obtain ⟨ys, r', hys, rfl, rfl⟩ := h
            have hne : skipSpace rest ≠ [] := fun hnil => by
              rw [hnil] at hys
              cases n with
              | zero => cases hys
              | succ n => simp [scanItems, hitem.1] at hys
            rw [skipSpace_append hne, ih (Nat.le_of_succ_le_succ hnm) hys]
            rfl
          · obtain ⟨rfl, rfl⟩ := Prod.mk.inj (Option.some.inj h)
            rfl

lemma scanAll_append (hitem : ReadsOn item) {close : Char} (hclose : isDelimiter close)
    {s r : PyStr} {xs : List α} (h : scanAll item close s = some (xs, r)) (t : PyStr) :
    scanAll item close (s ++ t) = some (xs, r ++ t) := by
  rw [scanAll] at h ⊢
  cases hskip : skipSpace s with
  | nil => rw [hskip] at h; cases h
  | cons c rest =>
      rw [hskip] at h
      rw [skipSpace_append (by rw [hskip]; exact List.cons_ne_nil _ _), hskip, List.cons_append]
      dsimp only at h ⊢
      split_ifs at h ⊢ with hc
      · obtain ⟨rfl, rfl⟩ := Prod.mk.inj (Option.some.inj h)
        rfl
      · rw [← List.cons_append]
        exact scanItems_append hitem hclose (by simp) h t

lemma ReadsOn.field (hitem : ReadsOn item) : ReadsOn (scanField item) := by
  refine ⟨rfl, fun s p d r h hd t => ?_⟩
  cases s with
  | nil => cases h
  | cons c rest =>
      rw [scanField] at h
      rw [List.cons_append, scanField]
      split_ifs at h ⊢ with hquote
      simp only [Option.bind_eq_bind, Option.bind_eq_some_iff, Prod.exists] at h ⊢
      obtain ⟨key, s₁, hkey, h⟩ := h
      refine ⟨key, s₁ ++ t, scanString_append hkey t, ?_⟩
      cases hskip : skipSpace s₁ with
      | nil => rw [hskip] at h; cases h
      | cons c s₂ =>
          rw [hskip] at h
          rw [skipSpace_append (by rw [hskip]; exact List.cons_ne_nil _ _), hskip,
            List.cons_append]
          dsimp only at h ⊢
          split_ifs at h ⊢ with hcolon
          simp only [Option.bind_eq_some_iff, Option.some.injEq, Prod.mk.injEq,
            Prod.exists] at h ⊢
          obtain ⟨x, s₃, hx, rfl, rfl⟩ := h
          have hne : skipSpace s₂ ≠ [] := fun hnil => by
            rw [hnil, hitem.1] at hx
            cases hx
          refine ⟨x, d :: r ++ t, ?_, rfl, rfl⟩
          rw [skipSpace_append hne]
          exact hitem.2 _ x d r hx hd t

end Items

variable {floatOf : PyStr → Option ℚ}

/-- The text of a number may go on. -/
lemma not_isClosed_of_scanNumber {s r : PyStr} {v : Json}
    (h : scanNumber floatOf s = some (v, r)) : ¬v.IsClosed := by
  rw [scanNumber] at h
  dsimp only at h
  split_ifs at h
  all_goals
    rw [← (Prod.mk.inj (Option.some.inj h)).1]
    exact id

/-- A value that is read in front of a text is read in front of a longer one; behind a number a
delimiter has to follow. -/
lemma scanOnce_append {depth : ℕ} {s r : PyStr} {v : Json}
    (h : scanOnce floatOf depth s = some (v, r))
    (hr : v.IsClosed ∨ ∃ d r', r = d :: r' ∧ isDelimiter d) (t : PyStr) :
    scanOnce floatOf depth (s ++ t) = some (v, r ++ t) := by
  induction depth using Nat.strong_induction_on generalizing s r v t with
  | _ depth ih =>
      have hitem : ∀ d < depth, ReadsOn (scanOnce floatOf d) := fun d hd =>
        ⟨by cases d <;> rfl, fun s x c r h hc t => ih d hd h (Or.inr ⟨c, r, rfl, hc⟩) t⟩
      cases s with
      | nil => cases depth <;> cases h
      | cons c rest =>
          rw [scanOnce.eq_def] at h
          rw [List.cons_append, scanOnce.eq_def]
          dsimp only at h ⊢
          split_ifs at h ⊢ with hquote hopen hbrace
          · obtain ⟨p, hp, he⟩ := Option.map_eq_some_iff.mp h
            obtain ⟨rfl, rfl⟩ := Prod.mk.inj he
            rw [scanString_append hp]
            rfl
          · cases depth with
            | zero => cases h
            | succ depth =>
                obtain ⟨p, hp, he⟩ := Option.map_eq_some_iff.mp h
                obtain ⟨rfl, rfl⟩ := Prod.mk.inj he
                dsimp only
                rw [scanAll_append (hitem depth (Nat.lt_succ_self _)) (by decide) hp]
                rfl
          · cases depth with
            | zero => cases h
            | succ depth =>
                obtain ⟨p, hp, he⟩ := Option.map_eq_some_iff.mp h
                obtain ⟨rfl, rfl⟩ := Prod.mk.inj he
                dsimp only
                rw [scanAll_append (hitem depth (Nat.lt_succ_self _)).field (by decide) hp]
                rfl
          · rw [← List.cons_append]
            cases hnumber : scanNumber floatOf (c :: rest) with
            | some p =>
                rw [hnumber, Option.some_or, Option.some.injEq] at h
                obtain ⟨d, r', rfl, hd⟩ : ∃ d r', r = d :: r' ∧ isDelimiter d :=
                  hr.resolve_left (not_isClosed_of_scanNumber (h ▸ hnumber))
                rw [scanNumber_append (h ▸ hnumber) hd, Option.some_or]
            | none =>
                rw [hnumber, Option.none_or] at h
                obtain ⟨p, hp, rfl, hs⟩ := exists_literal h
                obtain ⟨hliteral, hno⟩ := scanLiteral_append hp (r ++ t) floatOf
                rw [hs, List.append_assoc, hno, hliteral, Option.none_or]

lemma scanOnce_of_loads {depth : ℕ} {s : PyStr} {v : Json}
    (h : loads floatOf depth s = some v) :
    ∃ r, scanOnce floatOf depth (skipSpace s) = some (v, r) ∧ skipSpace r = [] := by
  rw [loads] at h
  split at h
  · rename_i x r hx
    split_ifs at h with hr
    exact ⟨r, by rw [hx, Option.some.inj h], hr⟩
  · cases h

/-- A text that is read as a closed value does not begin another text of a value. -/
lemma eq_of_loads_append {depth : ℕ} {s t : PyStr} {v w : Json} (hclosed : v.IsClosed)
    (hs : loads floatOf depth s = some v) (hst : loads floatOf depth (s ++ t) = some w) :
    v = w ∧ skipSpace t = [] := by
  obtain ⟨r, hr, hspace⟩ := scanOnce_of_loads hs
  obtain ⟨r', hr', hspace'⟩ := scanOnce_of_loads hst
  have hne : skipSpace s ≠ [] := fun hnil => by
    rw [hnil] at hr
    cases depth <;> cases hr
  rw [skipSpace_append hne, scanOnce_append hr (Or.inl hclosed)] at hr'
  obtain ⟨rfl, rfl⟩ := Prod.mk.inj (Option.some.inj hr')
  have hall : ∀ c ∈ r, isSpace c := List.dropWhile_eq_nil_iff.mp hspace
  rw [skipSpace, List.dropWhile_append_of_pos hall] at hspace'
  exact ⟨rfl, hspace'⟩

end Json

end P2Pearl
