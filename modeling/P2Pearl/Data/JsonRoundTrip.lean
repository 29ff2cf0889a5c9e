import P2Pearl.Data.JsonReader

/-!
Reading JSON texts back.

* `Json.Plain depth x`: a value without floats whose integers are short enough to be read, whose
  dictionaries have no key twice and that is nested no deeper than `depth`.
* `scanChar_escapeChar`, `scanNumber_int`, `scanItems_joinComma`: what is written in front of a
  text is read in front of it.
* `Json.loads_dumps`: a plain value is read back from its text; `loads_of_prefix`: the beginning of
  the text of a dictionary is not read.
* `Plain.isPrintable`: the text of a plain value is ASCII without control characters.
-/

namespace P2Pearl

namespace Json

/-! ### Texts -/

lemma scanUnit_hexDigits {n : ℕ} (h : n < 0x10000) (rest : PyStr) :
    scanUnit (hexDigits 4 n ++ rest) = some (n, rest) := by
  have hdigit : ∀ k, hexVal (hexChar (k % 16)) = some (k % 16) := fun k =>
    hexVal_hexChar _ (Nat.mod_lt _ (by omega))
  have hsum : 4096 * (n / 16 / 16 / 16 % 16) + 256 * (n / 16 / 16 % 16) + 16 * (n / 16 % 16)
      + n % 16 = n := by omega
  simp [hexDigits, scanUnit, hdigit, hsum]

/-- A code point that is not a surrogate. -/
lemma toNat_valid (c : Char) : c.toNat < 0xd800 ∨ 0xdfff < c.toNat ∧ c.toNat < 0x110000 := c.valid

lemma eq_ofNat {c : Char} {n : ℕ} (h : c.toNat = n) : c = Char.ofNat n := by
  rw [← h, Char.ofNat_toNat]

/-- The escape of a code unit that is no surrogate. -/
lemma scanEscape_unit {c : Char} (h : c.toNat < 0x10000) (rest : PyStr) :
    scanEscape ('u' :: (hexDigits 4 c.toNat ++ rest)) = some (c, rest) := by
  have hvalid := toNat_valid c
  rw [scanEscape, if_pos rfl, scanUnicode, scanUnit_hexDigits h, Option.bind_eq_bind,
    Option.bind_some]
  dsimp only
  rw [if_neg (by omega), if_neg (by omega), Char.ofNat_toNat]

/-- The escapes of a surrogate pair. -/
lemma scanEscape_pair {c : Char} (h : 0x10000 ≤ c.toNat) (rest : PyStr) :
    scanEscape ('u' :: (hexDigits 4 (0xd800 + (c.toNat - 0x10000) / 0x400)
      ++ unicodeEscape (0xdc00 + (c.toNat - 0x10000) % 0x400) ++ rest)) = some (c, rest) := by
  have hvalid := toNat_valid c
  have hpair : 0x10000 + (0xd800 + (c.toNat - 0x10000) / 0x400 - 0xd800) * 0x400
      + (0xdc00 + (c.toNat - 0x10000) % 0x400 - 0xdc00) = c.toNat := by omega
  rw [scanEscape, if_pos rfl, scanUnicode, List.append_assoc, scanUnit_hexDigits (by omega),
    Option.bind_eq_bind, Option.bind_some]
  dsimp only
  rw [if_pos (by omega), unicodeEscape, List.cons_append, List.cons_append]
  dsimp only
  rw [if_pos ⟨rfl, rfl⟩, scanUnit_hexDigits (by omega), Option.bind_some]
  dsimp only
  rw [if_pos (by omega), hpair, Char.ofNat_toNat]

lemma scanChar_backslash (s : PyStr) : scanChar (Char.ofNat 0x5c :: s) = scanEscape s := rfl

/-- A character is read back from between the quotes. -/
lemma scanChar_escapeChar (c : Char) (rest : PyStr) :
    scanChar (escapeChar c ++ rest) = some (c, rest) := by
  unfold escapeChar
  dsimp only
  split_ifs with hquote hb ht hn hf hr hplain hunit
  · have hu : c ≠ 'u' := by
      rintro rfl
      exact absurd hquote (by decide)
    rw [List.cons_append, scanChar_backslash, List.singleton_append, scanEscape, if_neg hu,
      unescape, if_pos (by omega)]
    rfl
  · obtain rfl := eq_ofNat hb; rfl
  · obtain rfl := eq_ofNat ht; rfl
  · obtain rfl := eq_ofNat hn; rfl
  · obtain rfl := eq_ofNat hf; rfl
  · obtain rfl := eq_ofNat hr; rfl
  · rw [List.singleton_append, scanChar, if_neg (by omega), if_neg (by omega)]
  · rw [unicodeEscape, List.cons_append, scanChar_backslash]
    exact scanEscape_unit hunit rest
  · rw [unicodeEscape, List.cons_append, List.cons_append, scanChar_backslash]
    exact scanEscape_pair (by omega) rest

/-- No character is written with a quote in front. -/
lemma exists_cons_escapeChar (c : Char) :
    ∃ d l, escapeChar c = d :: l ∧ d.toNat ≠ 0x22 := by
  unfold escapeChar
  dsimp only
  have hslash : (Char.ofNat 0x5c).toNat ≠ 0x22 := by decide
  split_ifs with hquote hb ht hn hf hr hplain hunit
  · exact ⟨_, _, rfl, hslash⟩
  · exact ⟨_, _, rfl, hslash⟩
  · exact ⟨_, _, rfl, hslash⟩
  · exact ⟨_, _, rfl, hslash⟩
  · exact ⟨_, _, rfl, hslash⟩
  · exact ⟨_, _, rfl, hslash⟩
  · exact ⟨c, [], rfl, fun h => hquote (Or.inl h)⟩
  · exact ⟨_, _, rfl, hslash⟩
  · exact ⟨_, _, rfl, hslash⟩

lemma length_le_escape (s : PyStr) : s.length ≤ (escape s).length := by
  rw [escape, List.length_flatMap, ← List.length_map (f := fun c => (escapeChar c).length)]
  refine List.length_le_sum_of_one_le _ fun n hn => ?_
  obtain ⟨c, -, rfl⟩ := List.mem_map.mp hn
  obtain ⟨d, l, hcons, -⟩ := exists_cons_escapeChar c
  rw [hcons]
  exact Nat.succ_pos _

/-- A text is read back up to the quote that closes it. -/
lemma scanString_escape (s rest : PyStr) :
    scanString (escape s ++ Char.ofNat 0x22 :: rest) = some (s, rest) := by
  have hfuel : ∀ s : PyStr, scanChars (s.length + 1) (escape s ++ Char.ofNat 0x22 :: rest)
      = some (s, rest) := by
    intro s
    induction s with
    | nil => rfl
    | cons c s ih =>
        obtain ⟨d, l, hcons, hd⟩ := exists_cons_escapeChar c
        have hchar := scanChar_escapeChar c (escape s ++ Char.ofNat 0x22 :: rest)
        have hsplit : escape (c :: s) = escapeChar c ++ escape s := rfl
        rw [hcons, List.cons_append] at hchar
        rw [hsplit, hcons, List.append_assoc, List.cons_append, List.length_cons, scanChars,
          if_neg hd, hchar, Option.bind_eq_bind, Option.bind_some]
        dsimp only
        rw [ih]
        rfl
  have hlen := length_le_escape s
  have hmore := scanChars_append (m := (escape s ++ Char.ofNat 0x22 :: rest).length)
    (by rw [List.length_append, List.length_cons]; omega) (hfuel s) []
  rwa [List.append_nil, List.append_nil] at hmore

/-! ### Integers -/

/-- Only a zero begins with the digit zero. -/
lemma toDigits_head {n : ℕ} (hn : n ≠ 0) : (Nat.toDigits 10 n).head? ≠ some '0' := by
  induction n using Nat.strong_induction_on with
  | _ n ih =>
      by_cases hlt : n < 10
      · rw [Nat.toDigits_of_lt_base hlt]
        interval_cases n <;> first | exact absurd rfl hn | decide
      · have hdiv : n / 10 ≠ 0 := by omega
        rw [Nat.toDigits_of_base_le (by omega) (by omega),
          List.head?_append_of_ne_nil _ Nat.toDigits_ne_nil]
        exact ih (n / 10) (by omega) hdiv

lemma isDigit_of_isDelimiter {c : Char} (h : isDelimiter c) : c.isDigit = false := by
  simp only [isDelimiter, isSpace, decide_eq_true_eq] at h
  rcases h with (h | h | h | h) | rfl | rfl | rfl
  · rw [eq_ofNat h]; rfl
  · rw [eq_ofNat h]; rfl
  · rw [eq_ofNat h]; rfl
  · rw [eq_ofNat h]; rfl
  · rfl
  · rfl
  · rfl

/-- What a number is followed by is no part of it. -/
lemma scan_of_delimited {rest : PyStr} (h : Delimited rest) :
    rest.takeWhile Char.isDigit = [] ∧ rest.dropWhile Char.isDigit = rest
      ∧ scanFraction rest = ([], rest) ∧ scanExponent rest = ([], rest) := by
  cases rest with
  | nil => exact ⟨rfl, rfl, rfl, rfl⟩
  | cons c rest =>
      have hc : isDelimiter c := h c rfl
      have hdigit := isDigit_of_isDelimiter hc
      have hpoint := isDelimiter_ne hc '.' (by decide)
      have hexponent : ¬(c = 'e' ∨ c = 'E') := not_or.mpr
        ⟨isDelimiter_ne hc _ (by decide), isDelimiter_ne hc _ (by decide)⟩
      exact ⟨by simp [hdigit], by simp [hdigit], by simp [scanFraction, hpoint],
        by simp [scanExponent, hexponent]⟩

lemma scanWhole_toDigits (n : ℕ) {rest : PyStr} (h : Delimited rest) :
    scanWhole (Nat.toDigits 10 n ++ rest) = (Nat.toDigits 10 n, rest) := by
  by_cases hn : n = 0
  · rw [hn]; rfl
  · obtain ⟨c, l, hcons⟩ := List.exists_cons_of_ne_nil (Nat.toDigits_ne_nil (n := n) (b := 10))
    have hc : c ≠ '0' := fun hc => toDigits_head hn (by rw [hcons, hc]; rfl)
    have hall : ∀ d ∈ Nat.toDigits 10 n, d.isDigit = true := fun d hd =>
      Nat.isDigit_of_mem_toDigits (by omega) le_rfl hd
    obtain ⟨htake, hdrop, -, -⟩ := scan_of_delimited h
    rw [hcons, List.cons_append, scanWhole, if_neg hc, ← List.cons_append, ← hcons, scanDigits,
      List.takeWhile_append_of_pos hall, List.dropWhile_append_of_pos hall, htake, hdrop,
      List.append_nil]

/-- A number that is no integer of too many digits, with its sign. -/
lemma scanNumber_digits (floatOf : PyStr → Option ℚ) {n : ℕ} (hn : n < 10 ^ maxStrDigits)
    {sign rest : PyStr} (hsign : sign = [] ∨ sign = ['-']) (h : Delimited rest) :
    scanNumber floatOf (sign ++ (Nat.toDigits 10 n ++ rest))
      = some (.int (if sign = [] then n else -n), rest) := by
  have hscan : scanSign false (sign ++ (Nat.toDigits 10 n ++ rest))
      = (sign, Nat.toDigits 10 n ++ rest) := by
    rcases hsign with rfl | rfl
    · obtain ⟨c, l, hcons⟩ := List.exists_cons_of_ne_nil (Nat.toDigits_ne_nil (n := n) (b := 10))
      have hdigit : c.isDigit = true :=
        Nat.isDigit_of_mem_toDigits (by omega) le_rfl (hcons ▸ List.mem_cons_self)
      have hc : c ≠ '-' := by
        rintro rfl
        exact absurd hdigit (by decide)
      simp [hcons, scanSign, hc]
    · rfl
  obtain ⟨-, -, hfraction, hexponent⟩ := scan_of_delimited h
  have hlen := (Nat.length_toDigits_le_iff (n := n) (by omega : 1 < 10)
    (by decide : 0 < maxStrDigits)).mpr hn
  rw [scanNumber, hscan]
  dsimp only
  rw [scanWhole_toDigits n h]
  dsimp only
  rw [hfraction]
  dsimp only
  rw [hexponent]
  dsimp only
  rw [if_neg Nat.toDigits_ne_nil, if_pos ⟨rfl, rfl⟩, if_neg (not_lt.mpr hlen),
    Nat.ofDigitChars_ten_toDigits]

/-- The text of an integer is its digits, behind a sign if it is negative. -/
lemma exists_sign (n : ℤ) : ∃ sign, (sign = [] ∨ sign = ['-'])
    ∧ (toString n).toList = sign ++ Nat.toDigits 10 n.natAbs
    ∧ n = if sign = [] then (n.natAbs : ℤ) else -n.natAbs := by
  cases n with
  | ofNat m => exact ⟨[], Or.inl rfl, Nat.toList_repr, rfl⟩
  | negSucc m =>
      refine ⟨['-'], Or.inr rfl, ?_, rfl⟩
      rw [show toString (Int.negSucc m) = "-" ++ (m + 1).repr from rfl, String.toList_append,
        Nat.toList_repr]
      rfl

/-- An integer that is short enough is read back. -/
lemma scanNumber_int (floatOf : PyStr → Option ℚ) {n : ℤ} (hn : n.natAbs < 10 ^ maxStrDigits)
    {rest : PyStr} (h : Delimited rest) :
    scanNumber floatOf ((toString n).toList ++ rest) = some (.int n, rest) := by
  obtain ⟨sign, hsign, htext, hvalue⟩ := exists_sign n
  rw [htext, List.append_assoc, scanNumber_digits floatOf hn hsign h, ← hvalue]

/-! ### Lists and dictionaries -/

/-- A text an item may begin with: neither white space nor a bracket that closes. -/
def Opens (s : PyStr) : Prop := ∃ c l, s = c :: l ∧ isDelimiter c = false

lemma Opens.append {s : PyStr} (h : Opens s) (t : PyStr) : Opens (s ++ t) := by
  obtain ⟨c, l, rfl, hc⟩ := h
  exact ⟨c, l ++ t, rfl, hc⟩

lemma Opens.skipSpace {s : PyStr} (h : Opens s) : skipSpace s = s := by
  obtain ⟨c, l, rfl, hc⟩ := h
  have hspace : isSpace c = false := by
    rw [Bool.eq_false_iff]
    exact fun hs => Bool.eq_false_iff.mp hc (by simp [isDelimiter, hs])
  rw [Json.skipSpace, List.dropWhile_cons_of_neg (by simp [hspace])]

/-- The brackets that close lists and dictionaries. -/
def IsClosing (c : Char) : Prop := c = ']' ∨ c = '}'

lemma IsClosing.spec {c : Char} (h : IsClosing c) :
    isDelimiter c = true ∧ c ≠ ',' ∧ ∀ rest, skipSpace (c :: rest) = c :: rest := by
  rcases h with rfl | rfl
  · exact ⟨rfl, by decide, fun rest => rfl⟩
  · exact ⟨rfl, by decide, fun rest => rfl⟩

lemma delimited_cons {c : Char} (h : isDelimiter c) (rest : PyStr) : Delimited (c :: rest) :=
  fun d hd => by cases hd; exact h

section Items

variable {α : Type} {item : PyStr → Option (α × PyStr)} {text : α → PyStr} {close : Char}
  {xs : List α}

lemma opens_joinComma (hopens : ∀ x ∈ xs, Opens (text x)) (hxs : xs ≠ []) :
    Opens (joinComma (xs.map text)) := by
  obtain ⟨x, xs, rfl⟩ := List.exists_cons_of_ne_nil hxs
  have hx := hopens x List.mem_cons_self
  cases xs with
  | nil => exact hx
  | cons y ys => exact hx.append _

/-- What is written with commas in between is read back item by item. -/
lemma scanItems_joinComma (hclose : IsClosing close) (hopens : ∀ x ∈ xs, Opens (text x))
    (hitem : ∀ x ∈ xs, ∀ rest, Delimited rest → item (text x ++ rest) = some (x, rest))
    (hxs : xs ≠ []) {fuel : ℕ} (hfuel : xs.length ≤ fuel) (rest : PyStr) :
    scanItems item close fuel (joinComma (xs.map text) ++ close :: rest) = some (xs, rest) := by
  obtain ⟨hdelim, hcomma, hskip⟩ := hclose.spec
  induction xs generalizing fuel with
  | nil => exact absurd rfl hxs
  | cons x xs ih =>
      obtain ⟨fuel, rfl⟩ := Nat.exists_eq_add_of_le' (Nat.one_le_of_lt hfuel)
      have hx := hitem x List.mem_cons_self
      cases xs with
      | nil =>
          rw [List.map_singleton, joinComma, scanItems, hx _ (delimited_cons hdelim rest),
            Option.bind_eq_bind, Option.bind_some]
          dsimp only
          rw [hskip]
          dsimp only
          rw [if_neg hcomma, if_pos rfl]
      | cons y ys =>
          have hopens' := fun z hz => hopens z (List.mem_cons_of_mem x hz)
          have hrec := ih hopens' (fun z hz => hitem z (List.mem_cons_of_mem x hz))
            (List.cons_ne_nil y ys) (Nat.le_of_succ_le_succ hfuel)
          have hnext := ((opens_joinComma hopens' (List.cons_ne_nil y ys)).append
            (close :: rest)).skipSpace
          rw [List.map_cons, List.map_cons, joinComma, ← List.map_cons, List.append_assoc,
            List.cons_append, scanItems, hx _ (delimited_cons (by decide) _),
            Option.bind_eq_bind, Option.bind_some]
          dsimp only
          rw [show ∀ s, skipSpace (',' :: s) = ',' :: s from fun _ => rfl]
          dsimp only
          rw [if_pos rfl, hnext, hrec]
          rfl

lemma length_le_joinComma (hopens : ∀ x ∈ xs, Opens (text x)) :
    xs.length ≤ (joinComma (xs.map text)).length := by
  cases xs with
  | nil => exact Nat.zero_le _
  | cons x xs =>
      obtain ⟨c, l, hx, -⟩ := hopens x List.mem_cons_self
      have hrest := List.length_le_sum_of_one_le ((xs.map text).map fun y => y.length + 1)
        fun n hn => by
          obtain ⟨y, -, rfl⟩ := List.mem_map.mp hn
          exact Nat.succ_pos _
      rw [List.length_map, List.length_map] at hrest
      rw [List.map_cons, length_joinComma, hx, List.length_cons, List.length_cons]
      omega

/-- What is written between brackets is read back. -/
lemma scanAll_joinComma (hclose : IsClosing close) (hopens : ∀ x ∈ xs, Opens (text x))
    (hitem : ∀ x ∈ xs, ∀ rest, Delimited rest → item (text x ++ rest) = some (x, rest))
    (rest : PyStr) :
    scanAll item close (joinComma (xs.map text) ++ close :: rest) = some (xs, rest) := by
  by_cases hxs : xs = []
  · rw [hxs, List.map_nil, joinComma, List.nil_append, scanAll, hclose.spec.2.2]
    exact if_pos rfl
  · have hjoined := (opens_joinComma hopens hxs).append (close :: rest)
    have hlen := length_le_joinComma hopens
    have hfuel : xs.length ≤ (joinComma (xs.map text) ++ close :: rest).length := by
      rw [List.length_append]
      omega
    have hitems := scanItems_joinComma hclose hopens hitem hxs hfuel rest
    rw [scanAll, hjoined.skipSpace]
    obtain ⟨c, l, hcons, hc⟩ := hjoined
    have hne : c ≠ close := by
      rintro rfl
      exact Bool.eq_false_iff.mp hc hclose.spec.1
    rw [hcons] at hitems ⊢
    dsimp only
    rw [if_neg hne, hitems]

/-- A key and its value are read back. -/
lemma scanField_dumpsStr {x : α} (hopens : Opens (text x))
    (hitem : ∀ rest, Delimited rest → item (text x ++ rest) = some (x, rest)) (key : PyStr)
    {rest : PyStr} (hrest : Delimited rest) :
    scanField item (dumpsStr key ++ ':' :: text x ++ rest) = some ((key, x), rest) := by
  have hstring := scanString_escape key (':' :: (text x ++ rest))
  have hvalue := (hopens.append rest).skipSpace
  simp only [dumpsStr, List.cons_append, List.append_assoc, List.nil_append, scanField]
  rw [if_pos (by decide), hstring, Option.bind_eq_bind, Option.bind_some]
  dsimp only
  rw [show ∀ s, skipSpace (':' :: s) = ':' :: s from fun _ => rfl]
  dsimp only
  rw [if_pos rfl, hvalue, hitem rest hrest]
  rfl

end Items

/-! ### Values -/

/-- A value that is read back: without floats, its integers short enough, its keys distinct, and
nested no deeper than a limit. -/
inductive Plain : ℕ → Json → Prop
  | null (depth : ℕ) : Plain depth .null
  | bool (depth : ℕ) (b : Bool) : Plain depth (.bool b)
  | int (depth : ℕ) (n : ℤ) (short : n.natAbs < 10 ^ maxStrDigits) : Plain depth (.int n)
  | str (depth : ℕ) (s : PyStr) : Plain depth (.str s)
  | arr (depth : ℕ) (l : List Json) (items : ∀ x ∈ l, Plain depth x) : Plain (depth + 1) (.arr l)
  | obj (depth : ℕ) (fields : List (PyStr × Json)) (keys : (fields.map Prod.fst).Nodup)
      (values : ∀ p ∈ fields, Plain depth p.2) : Plain (depth + 1) (.obj fields)

/-- What nests little enough for a limit does for a higher one. -/
lemma Plain.mono {depth limit : ℕ} {x : Json} (h : Plain depth x) (hle : depth ≤ limit) :
    Plain limit x := by
  induction h generalizing limit with
  | null depth => exact .null limit
  | bool depth b => exact .bool limit b
  | int depth n short => exact .int limit n short
  | str depth s => exact .str limit s
  | arr depth l items ih =>
      obtain ⟨limit, rfl⟩ := Nat.exists_eq_add_of_le' (Nat.one_le_of_lt hle)
      exact .arr limit l fun x hx => ih x hx (Nat.le_of_succ_le_succ hle)
  | obj depth fields keys values ih =>
      obtain ⟨limit, rfl⟩ := Nat.exists_eq_add_of_le' (Nat.one_le_of_lt hle)
      exact .obj limit fields keys fun p hp => ih p hp (Nat.le_of_succ_le_succ hle)

/-- A dictionary with distinct keys is that of its items. -/
lemma ofPairs_of_nodup {α : Type} {pairs : List (PyStr × α)} (h : (pairs.map Prod.fst).Nodup) :
    ofPairs pairs = pairs := by
  rw [ofPairs]
  suffices hfold : ∀ old : List (PyStr × α), ((old ++ pairs).map Prod.fst).Nodup →
      pairs.foldl (fun l p => OrderedMap.setItems p.1 p.2 l) old = old ++ pairs by
    exact hfold [] h
  clear h
  induction pairs with
  | nil => exact fun old _ => (List.append_nil old).symm
  | cons p pairs ih =>
      intro old hold
      have hfresh : p.1 ∉ old.map Prod.fst := by
        rw [List.map_append, List.nodup_append] at hold
        exact fun hmem => hold.2.2 _ hmem _ List.mem_cons_self rfl
      have hsplit : old ++ p :: pairs = old ++ [p] ++ pairs := by simp
      rw [List.foldl_cons, OrderedMap.setItems_of_fresh hfresh, hsplit]
      exact ih _ (hsplit ▸ hold)

variable (floatText : Option ℚ → PyStr) (floatOf : PyStr → Option ℚ)

lemma dumpsItems_eq (l : List Json) : dumpsItems floatText l = l.map (dumps floatText) := by
  induction l with
  | nil => rfl
  | cons x l ih => rw [dumpsItems, ih, List.map_cons]

lemma dumpsFields_eq (fields : List (PyStr × Json)) : dumpsFields floatText fields
    = fields.map fun p => (String.ofList p.1, p.2.dumps floatText) := by
  induction fields with
  | nil => rfl
  | cons p fields ih => rw [dumpsFields, ih, List.map_cons]

lemma opens_toDigits (n : ℕ) : Opens (Nat.toDigits 10 n) := by
  obtain ⟨c, l, hcons⟩ := List.exists_cons_of_ne_nil (Nat.toDigits_ne_nil (n := n) (b := 10))
  have hdigit : c.isDigit = true :=
    Nat.isDigit_of_mem_toDigits (by omega) le_rfl (hcons ▸ List.mem_cons_self)
  refine ⟨c, l, hcons, Bool.eq_false_iff.mpr fun hc => ?_⟩
  rw [isDigit_of_isDelimiter hc] at hdigit
  exact Bool.false_ne_true hdigit

lemma opens_int (n : ℤ) : Opens (toString n).toList := by
  obtain ⟨sign, rfl | rfl, htext, -⟩ := exists_sign n
  · rw [htext]; exact opens_toDigits _
  · exact ⟨_, _, htext, by decide⟩

lemma Plain.opens {depth : ℕ} {x : Json} (h : Plain depth x) : Opens (x.dumps floatText) := by
  cases h with
  | null => exact ⟨_, _, rfl, by decide⟩
  | bool _ b => cases b <;> exact ⟨_, _, rfl, by decide⟩
  | int _ n => exact opens_int n
  | str _ s => exact ⟨_, _, rfl, by decide⟩
  | arr _ l => exact ⟨_, _, rfl, by decide⟩
  | obj _ fields => exact ⟨_, _, rfl, by decide⟩

lemma scanOnce_of_scanNumber {depth : ℕ} {s : PyStr} {p : Json × PyStr}
    (h : scanNumber floatOf s = some p) : scanOnce floatOf depth s = some p := by
  cases s with
  | nil => cases h
  | cons c rest =>
      rw [scanOnce.eq_def]
      dsimp only
      split_ifs with hquote hopen hbrace
      · obtain rfl := eq_ofNat hquote
        cases h
      · obtain rfl := hopen
        cases h
      · obtain rfl := hbrace
        cases h
      · rw [h, Option.some_or]

/-- A plain value is read back in front of a text that goes on with a delimiter. -/
lemma scanOnce_dumps {depth : ℕ} {x : Json} (h : Plain depth x) {rest : PyStr}
    (hrest : Delimited rest) :
    scanOnce floatOf depth (x.dumps floatText ++ rest) = some (x, rest) := by
  induction h generalizing rest with
  | null depth => cases depth <;> rfl
  | bool depth b => cases depth <;> cases b <;> rfl
  | int depth n short => exact scanOnce_of_scanNumber floatOf (scanNumber_int floatOf short hrest)
  | str depth s =>
      rw [dumps, dumpsStr, List.cons_append, List.append_assoc, List.singleton_append,
        scanOnce.eq_def]
      dsimp only
      rw [if_pos (by decide), scanString_escape]
      rfl
  | arr depth l items ih =>
      have hall := scanAll_joinComma (show IsClosing ']' from Or.inl rfl)
        (fun x hx => (items x hx).opens floatText) (fun x hx rest hr => ih x hx hr) rest
      rw [dumps, dumpsItems_eq, dumpsList, List.cons_append, List.append_assoc,
        List.singleton_append, scanOnce.eq_def]
      dsimp only
      rw [if_neg (by decide), if_pos rfl, hall]
      rfl
  | obj depth fields keys values ih =>
      have hopens : ∀ p ∈ fields, Opens (dumpsStr p.1 ++ ':' :: p.2.dumps floatText) :=
        fun p _ => ⟨_, _, rfl, by decide⟩
      have hfield : ∀ p ∈ fields, ∀ rest, Delimited rest → scanField (scanOnce floatOf depth)
          (dumpsStr p.1 ++ ':' :: p.2.dumps floatText ++ rest) = some (p, rest) :=
        fun p hp rest hr => scanField_dumpsStr ((values p hp).opens floatText)
          (fun rest hr => ih p hp hr) p.1 hr
      have hall := scanAll_joinComma (show IsClosing '}' from Or.inr rfl) hopens hfield rest
      rw [dumps, dumpsFields_eq, dumpsDict, List.map_map, List.cons_append, List.append_assoc,
        List.singleton_append, scanOnce.eq_def]
      simp only [Function.comp_def, String.toList_ofList]
      rw [if_neg (by decide), if_neg (by decide), if_pos trivial, hall, Option.map_some,
        ofPairs_of_nodup keys]

/-- **The round trip**: a plain value is read back from its text, with white space behind it. -/
theorem loads_dumps {depth : ℕ} {x : Json} (h : Plain depth x) {rest : PyStr}
    (hrest : skipSpace rest = []) : loads floatOf depth (x.dumps floatText ++ rest) = some x := by
  have hspace : ∀ c ∈ rest, isSpace c := List.dropWhile_eq_nil_iff.mp hrest
  have hdelimited : Delimited rest := fun c hc => by
    simp [isDelimiter, hspace c (List.mem_of_mem_head? hc)]
  rw [loads, ((h.opens floatText).append rest).skipSpace,
    scanOnce_dumps floatText floatOf h hdelimited]
  exact if_pos hrest

/-- What begins with a bracket of a dictionary is one. -/
lemma isClosed_of_loads_brace {depth : ℕ} {s : PyStr} {v : Json}
    (h : loads floatOf depth ('{' :: s) = some v) : v.IsClosed := by
  obtain ⟨r, hr, -⟩ := scanOnce_of_loads h
  rw [show skipSpace ('{' :: s) = '{' :: s from rfl, scanOnce.eq_def] at hr
  dsimp only at hr
  rw [if_neg (by decide), if_neg (by decide), if_pos rfl] at hr
  cases depth with
  | zero => cases hr
  | succ depth =>
      obtain ⟨p, -, hp⟩ := Option.map_eq_some_iff.mp hr
      rw [← (Prod.mk.inj hp).1]
      trivial

/-- **No part for the whole**: the beginning of the text of a dictionary is not read. -/
theorem loads_of_prefix {depth : ℕ} {fields : List (PyStr × Json)} (h : Plain depth (.obj fields))
    {s : PyStr} (hs : s <+: dumps floatText (.obj fields))
    (hne : s ≠ dumps floatText (.obj fields)) : loads floatOf depth s = none := by
  obtain ⟨body, hbody⟩ : ∃ body, dumps floatText (.obj fields) = '{' :: (body ++ ['}']) :=
    ⟨_, rfl⟩
  obtain ⟨t, ht⟩ := hs
  have htail : t ≠ [] := fun hnil => hne (by rw [← ht, hnil, List.append_nil])
  cases s with
  | nil => cases depth <;> rfl
  | cons c s =>
      obtain rfl : c = '{' := by
        rw [hbody, List.cons_append] at ht
        exact (List.cons.inj ht).1
      by_contra hread
      obtain ⟨v, hv⟩ := Option.ne_none_iff_exists'.mp hread
      have hwhole : loads floatOf depth (dumps floatText (.obj fields) ++ [])
          = some (.obj fields) := loads_dumps floatText floatOf h rfl
      rw [List.append_nil, ← ht] at hwhole
      have hspace := (eq_of_loads_append (isClosed_of_loads_brace floatOf hv) hv hwhole).2
      -- the last character is the bracket that closes
      have hlast : t.getLast htail = '}' := by
        have hall := congrArg List.getLast? (ht.trans hbody)
        rw [List.getLast?_append_of_ne_nil _ htail, ← List.cons_append,
          List.getLast?_concat, List.getLast?_eq_getLast_of_ne_nil htail] at hall
        exact Option.some.inj hall
      have hclose := List.dropWhile_eq_nil_iff.mp hspace _ (List.getLast_mem htail)
      rw [hlast] at hclose
      exact absurd hclose (by decide)

/-! ### The characters of a text -/

/-- The characters of a printed text: ASCII without control characters. -/
def IsPrintable (s : PyStr) : Prop := ∀ c ∈ s, 0x20 ≤ c.toNat ∧ c.toNat ≤ 0x7e

lemma IsPrintable.append {s t : PyStr} (hs : IsPrintable s) (ht : IsPrintable t) :
    IsPrintable (s ++ t) := fun c hc => (List.mem_append.mp hc).elim (hs c) (ht c)

lemma IsPrintable.cons {c : Char} {s : PyStr} (hc : 0x20 ≤ c.toNat ∧ c.toNat ≤ 0x7e)
    (hs : IsPrintable s) : IsPrintable (c :: s) :=
  fun d hd => (List.mem_cons.mp hd).elim (fun h => h ▸ hc) (hs d)

lemma isPrintable_nil : IsPrintable [] := fun _ h => absurd h List.not_mem_nil

lemma isPrintable_of_all {s : PyStr}
    (h : (s.all fun c => 0x20 ≤ c.toNat ∧ c.toNat ≤ 0x7e) = true) : IsPrintable s :=
  fun c hc => of_decide_eq_true (List.all_eq_true.mp h c hc)

lemma isPrintable_hexChar : ∀ d < 16, IsPrintable [hexChar d] := by
  have hall : ∀ d < 16, 0x20 ≤ (hexChar d).toNat ∧ (hexChar d).toNat ≤ 0x7e := by decide
  exact fun d hd => .cons (hall d hd) isPrintable_nil

lemma isPrintable_hexDigits (k n : ℕ) : IsPrintable (hexDigits k n) := by
  induction k generalizing n with
  | zero => exact isPrintable_nil
  | succ k ih => exact (ih _).append (isPrintable_hexChar _ (Nat.mod_lt _ (by omega)))

lemma isPrintable_escapeChar (c : Char) : IsPrintable (escapeChar c) := by
  have hunit : ∀ n, IsPrintable (unicodeEscape n) := fun n =>
    .cons (by decide) (.cons (by decide) (isPrintable_hexDigits 4 n))
  unfold escapeChar
  dsimp only
  split_ifs with hquote hb ht hn hf hr hplain
  · exact .cons (by decide) (.cons (by omega) isPrintable_nil)
  · exact .cons (by decide) (.cons (by decide) isPrintable_nil)
  · exact .cons (by decide) (.cons (by decide) isPrintable_nil)
  · exact .cons (by decide) (.cons (by decide) isPrintable_nil)
  · exact .cons (by decide) (.cons (by decide) isPrintable_nil)
  · exact .cons (by decide) (.cons (by decide) isPrintable_nil)
  · exact .cons hplain isPrintable_nil
  · exact hunit _
  · exact (hunit _).append (hunit _)

lemma isPrintable_dumpsStr (s : PyStr) : IsPrintable (dumpsStr s) := by
  refine .cons (by decide) (.append (fun c hc => ?_) (.cons (by decide) isPrintable_nil))
  obtain ⟨d, -, hd⟩ := List.mem_flatMap.mp hc
  exact isPrintable_escapeChar d c hd

lemma isPrintable_joinComma {l : List PyStr} (h : ∀ s ∈ l, IsPrintable s) :
    IsPrintable (joinComma l) := by
  induction l with
  | nil => exact isPrintable_nil
  | cons x rest ih =>
      cases rest with
      | nil => exact h x List.mem_cons_self
      | cons y rest =>
          exact (h x List.mem_cons_self).append
            (.cons (by decide) (ih fun s hs => h s (List.mem_cons_of_mem _ hs)))

lemma isPrintable_int (n : ℤ) : IsPrintable (toString n).toList := by
  have hdigit : ∀ c : Char, c.isDigit → 0x20 ≤ c.toNat ∧ c.toNat ≤ 0x7e := fun c hc => by
    obtain ⟨hlow, hhigh⟩ := Char.isDigit_iff_toNat.mp hc
    exact ⟨le_trans (by decide) hlow, hhigh.trans (by decide)⟩
  obtain ⟨sign, hsign, htext, -⟩ := exists_sign n
  rw [htext]
  refine .append ?_ fun c hc => hdigit c (Nat.isDigit_of_mem_toDigits (by omega) le_rfl hc)
  rcases hsign with rfl | rfl
  · exact isPrintable_nil
  · exact .cons (by decide) isPrintable_nil

lemma isPrintable_literal : IsPrintable "null".toList ∧ IsPrintable "true".toList
    ∧ IsPrintable "false".toList :=
  ⟨isPrintable_of_all rfl, isPrintable_of_all rfl, isPrintable_of_all rfl⟩

/-- The text of a plain value is printable. -/
lemma Plain.isPrintable {depth : ℕ} {x : Json} (h : Plain depth x) :
    IsPrintable (x.dumps floatText) := by
  induction h with
  | null depth => exact isPrintable_literal.1
  | bool depth b =>
      cases b
      · exact isPrintable_literal.2.2
      · exact isPrintable_literal.2.1
  | int depth n short => exact isPrintable_int n
  | str depth s => exact isPrintable_dumpsStr s
  | arr depth l items ih =>
      rw [dumps, dumpsItems_eq, dumpsList]
      refine .cons (by decide) (.append (isPrintable_joinComma fun s hs => ?_)
        (.cons (by decide) isPrintable_nil))
      obtain ⟨x, hx, rfl⟩ := List.mem_map.mp hs
      exact ih x hx
  | obj depth fields keys values ih =>
      rw [dumps, dumpsFields_eq, dumpsDict, List.map_map]
      refine .cons (by decide) (.append (isPrintable_joinComma fun s hs => ?_)
        (.cons (by decide) isPrintable_nil))
      obtain ⟨p, hp, rfl⟩ := List.mem_map.mp hs
      exact (isPrintable_dumpsStr _).append (.cons (by decide) (ih p hp))

end Json

end P2Pearl
