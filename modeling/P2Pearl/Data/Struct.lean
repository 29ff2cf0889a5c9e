import P2Pearl.Data.Bytes

/-!
The pieces of Python's standard library the wire formats are written with.

* `pack` and `unpack`: `struct.pack` and `struct.unpack_from` for one unsigned
  little-endian integer, which raise when the value does not fit or the bytes run out.
* `takeBytes`: a slice `data[off:off+n]`, which is silently short at the end of the data.
* `encodeAscii` and `decodeAscii`: `str.encode("ascii")` and `bytes.decode("ascii")`.

A read position is represented by the bytes that remain after it.  Each reader undoes the
writer on any continuation: `unpack_append`, `takeBytes_append`, `decodeAscii_encodeAscii`; and
what it reads is what the writer writes: `unpack_eq_ok_iff`, `decodeAscii_eq_ok_iff`.
-/

namespace P2Pearl

/-- A Python exception. -/
inductive PyError where
  | valueError (message : String)
  | structError
  | unicodeError
  | indexError
  | keyError
  | attributeError
  | typeError
  | notImplementedError
  /-- `NodeRPCError`. -/
  | nodeRPCError (message : String)
  /-- Raised by an injected adapter or a third-party package. -/
  | external
  deriving DecidableEq, Repr

/-! ### Sequencing -/

section Sequencing

variable {ε α β : Type}

lemma bind_eq_ok_iff {x : Except ε α} {f : α → Except ε β} {b : β} :
    (x >>= f) = .ok b ↔ ∃ a, x = .ok a ∧ f a = .ok b := by
  cases x with
  | error e => simp [bind, Except.bind]
  | ok a => simp [bind, Except.bind]

@[simp] lemma ok_bind (a : α) (f : α → Except ε β) : ((Except.ok a : Except ε α) >>= f) = f a :=
  rfl

lemma map_eq_ok_iff {x : Except ε α} {f : α → β} {b : β} :
    x.map f = .ok b ↔ ∃ a, x = .ok a ∧ f a = b := by
  cases x with
  | error e => simp [Except.map]
  | ok a => simp [Except.map]

/-- What an optional result holds. -/
lemma eq_ok_of_mem_join {x : Except ε (Option α)} {a : α} (h : a ∈ x.toOption.join) :
    x = .ok (some a) := by
  cases x with
  | error e => cases h
  | ok o =>
      cases o with
      | none => cases h
      | some b => cases h; rfl

/-- A list read element by element, when every element is read. -/
lemma mapM_eq_ok {f : α → Except ε β} {g : β → α} (h : ∀ b, f (g b) = .ok b) (l : List β) :
    (l.map g).mapM f = .ok l := by
  induction l with
  | nil => rfl
  | cons b l ih => rw [List.map_cons, List.mapM_cons, h b, ih]; rfl

lemma mapM_congr_left {f g : α → Except ε β} {l : List α} (h : ∀ a ∈ l, f a = g a) :
    l.mapM f = l.mapM g := by
  induction l with
  | nil => rfl
  | cons a l ih =>
      rw [List.mapM_cons, List.mapM_cons, h a List.mem_cons_self,
        ih fun b hb => h b (List.mem_cons_of_mem _ hb)]

/-- A list every element of which is read is read. -/
lemma mapM_eq_ok_map {f : α → Except ε β} {g : α → β} {l : List α}
    (h : ∀ a ∈ l, f a = .ok (g a)) : l.mapM f = .ok (l.map g) := by
  induction l with
  | nil => rfl
  | cons a l ih =>
      rw [List.mapM_cons, h a List.mem_cons_self, ih fun b hb => h b (List.mem_cons_of_mem _ hb)]
      rfl

lemma mapM_isOk {f : α → Except ε β} {l : List α} (h : ∀ a ∈ l, ∃ b, f a = .ok b) :
    ∃ bs, l.mapM f = .ok bs := by
  induction l with
  | nil => exact ⟨[], rfl⟩
  | cons a l ih =>
      obtain ⟨b, hb⟩ := h a List.mem_cons_self
      obtain ⟨bs, hbs⟩ := ih fun c hc => h c (List.mem_cons_of_mem _ hc)
      exact ⟨b :: bs, by rw [List.mapM_cons, hb, hbs]; rfl⟩

/-- What a list is read to was read from one of its elements. -/
lemma mem_of_mapM_eq_ok {f : α → Except ε β} {l : List α} {bs : List β} (h : l.mapM f = .ok bs) :
    ∀ b ∈ bs, ∃ a ∈ l, f a = .ok b := by
  induction l generalizing bs with
  | nil =>
      cases h
      exact fun b hb => absurd hb List.not_mem_nil
  | cons a l ih =>
      rw [List.mapM_cons] at h
      obtain ⟨b, hb, h⟩ := bind_eq_ok_iff.mp h
      obtain ⟨cs, hcs, h⟩ := bind_eq_ok_iff.mp h
      cases h
      intro x hx
      rcases List.mem_cons.mp hx with rfl | hx
      · exact ⟨a, List.mem_cons_self, hb⟩
      · obtain ⟨c, hc, hfc⟩ := ih hcs x hx
        exact ⟨c, List.mem_cons_of_mem _ hc, hfc⟩

lemma of_mapM_eq_ok {f : α → Except ε β} {l : List α} {bs : List β} (h : l.mapM f = .ok bs) :
    ∀ a ∈ l, ∃ b, f a = .ok b := by
  induction l generalizing bs with
  | nil => exact fun a ha => absurd ha List.not_mem_nil
  | cons a l ih =>
      rw [List.mapM_cons] at h
      obtain ⟨b, hb, h⟩ := bind_eq_ok_iff.mp h
      obtain ⟨cs, hcs, -⟩ := bind_eq_ok_iff.mp h
      intro x hx
      rcases List.mem_cons.mp hx with rfl | hx
      · exact ⟨b, hb⟩
      · exact ih hcs x hx

end Sequencing

/-! ### `struct` -/

/-- `struct.pack` of one unsigned `k`-byte little-endian integer. -/
def pack (k n : ℕ) : Except PyError Bytes :=
  if n < 256 ^ k then .ok (leBytes k n) else .error .structError

/-- `struct.unpack_from` of one unsigned `k`-byte little-endian integer, with the bytes
behind it. -/
def unpack (k : ℕ) (data : Bytes) : Except PyError (ℕ × Bytes) :=
  if k ≤ data.length then .ok (leNat (data.take k), data.drop k) else .error .structError

/-- The slice of `n` bytes at the read position, and the bytes behind it. -/
def takeBytes (n : ℕ) (data : Bytes) : Bytes × Bytes := (data.take n, data.drop n)

@[simp] lemma pack_eq_ok_iff {k n : ℕ} {b : Bytes} :
    pack k n = .ok b ↔ n < 256 ^ k ∧ leBytes k n = b := by
  rw [pack]; split_ifs with h <;> simp [h]

lemma pack_of_lt {k n : ℕ} (h : n < 256 ^ k) : pack k n = .ok (leBytes k n) := if_pos h

/-- Unpacking a packed integer returns it, whatever follows. -/
lemma unpack_append {k n : ℕ} (h : n < 256 ^ k) (t : Bytes) :
    unpack k (leBytes k n ++ t) = .ok (n, t) := by
  have hlen : k ≤ (leBytes k n ++ t).length := by simp
  rw [unpack, if_pos hlen, List.take_left' (leBytes_length k n),
    List.drop_left' (leBytes_length k n), leNat_leBytes h]

/-- What is unpacked is a packed integer and what follows it. -/
lemma unpack_eq_ok_iff {k n : ℕ} {data rest : Bytes} :
    unpack k data = .ok (n, rest) ↔ n < 256 ^ k ∧ data = leBytes k n ++ rest := by
  constructor
  · intro h
    rw [unpack] at h
    split_ifs at h with hk
    obtain ⟨rfl, rfl⟩ := Prod.mk.inj (Except.ok.inj h)
    have hlen : (data.take k).length = k := List.length_take_of_le hk
    refine ⟨by simpa only [hlen] using leNat_lt (data.take k), ?_⟩
    have hread := leBytes_leNat (data.take k)
    rw [hlen] at hread
    rw [hread, List.take_append_drop]
  · rintro ⟨hn, rfl⟩
    exact unpack_append hn rest

/-- A slice is whole where anything is left behind it. -/
lemma length_take_of_drop_ne_nil {n : ℕ} {data : Bytes} (h : data.drop n ≠ []) :
    (data.take n).length = n := by
  refine List.length_take_of_le (not_lt.mp fun hlt => h ?_)
  exact List.drop_eq_nil_of_le hlt.le

lemma takeBytes_append {n : ℕ} {b : Bytes} (h : b.length = n) (t : Bytes) :
    takeBytes n (b ++ t) = (b, t) := by
  rw [takeBytes, List.take_left' h, List.drop_left' h]

/-! ### ASCII -/

/-- A Python string, as its code points. -/
abbrev PyStr := List Char

/-- The string consists of ASCII characters. -/
def IsAscii (s : PyStr) : Prop := ∀ c ∈ s, c.toNat < 128

instance (s : PyStr) : Decidable (IsAscii s) :=
  decidable_of_iff (s.all fun c => c.toNat < 128) (by simp [IsAscii])

/-- `s.encode("ascii")`. -/
def encodeAscii (s : PyStr) : Except PyError Bytes :=
  if IsAscii s then .ok (s.map fun c => UInt8.ofNat c.toNat) else .error .unicodeError

/-- `b.decode("ascii")`. -/
def decodeAscii (b : Bytes) : Except PyError PyStr :=
  if b.all fun x => x.toNat < 128 then .ok (b.map fun x => Char.ofNat x.toNat)
  else .error .unicodeError

@[simp] lemma encodeAscii_eq_ok_iff {s : PyStr} {b : Bytes} :
    encodeAscii s = .ok b ↔ IsAscii s ∧ (s.map fun c => UInt8.ofNat c.toNat) = b := by
  rw [encodeAscii]; split_ifs with h <;> simp [h]

lemma encodeAscii_of_isAscii {s : PyStr} (h : IsAscii s) :
    encodeAscii s = .ok (s.map fun c => UInt8.ofNat c.toNat) := if_pos h

/-- Decoding an encoded string returns it. -/
lemma decodeAscii_encodeAscii {s : PyStr} (h : IsAscii s) :
    decodeAscii (s.map fun c => UInt8.ofNat c.toNat) = .ok s := by
  have hbyte : ∀ c ∈ s, (UInt8.ofNat c.toNat).toNat = c.toNat := fun c hc => by
    have := h c hc
    rw [UInt8.toNat_ofNat']; omega
  have hall : (s.map fun c => UInt8.ofNat c.toNat).all (fun x => x.toNat < 128) = true := by
    rw [List.all_eq_true]
    intro x hx
    obtain ⟨c, hc, rfl⟩ := List.mem_map.mp hx
    rw [hbyte c hc]; exact decide_eq_true (h c hc)
  rw [decodeAscii, if_pos hall, List.map_map]
  congr 1
  conv_rhs => rw [← List.map_id s]
  refine List.map_congr_left fun c hc => ?_
  rw [Function.comp_apply, hbyte c hc, Char.ofNat_toNat, id]

lemma toNat_charOfNat : ∀ n < 128, (Char.ofNat n).toNat = n := by decide

/-- What is decoded is an ASCII string and its encoding. -/
lemma decodeAscii_eq_ok_iff {b : Bytes} {s : PyStr} :
    decodeAscii b = .ok s ↔ IsAscii s ∧ (s.map fun c => UInt8.ofNat c.toNat) = b := by
  constructor
  · intro h
    rw [decodeAscii] at h
    split_ifs at h with hall
    cases h
    have hbyte : ∀ x ∈ b, x.toNat < 128 := by simpa using hall
    refine ⟨fun c hc => ?_, ?_⟩
    · obtain ⟨x, hx, rfl⟩ := List.mem_map.mp hc
      rw [toNat_charOfNat _ (hbyte x hx)]
      exact hbyte x hx
    · rw [List.map_map]
      conv_rhs => rw [← List.map_id b]
      refine List.map_congr_left fun x hx => ?_
      rw [Function.comp_apply, toNat_charOfNat _ (hbyte x hx), UInt8.ofNat_toNat, id]
  · rintro ⟨hs, rfl⟩
    exact decodeAscii_encodeAscii hs

end P2Pearl
