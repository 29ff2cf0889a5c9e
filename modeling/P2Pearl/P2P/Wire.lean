import P2Pearl.Data.JsonRoundTrip
import P2Pearl.P2P.Connection

/-!
The messages of a node on their way to a peer.

* `Sent`: what a node writes, with all its fields; `Sent.line` is the line of it.
* `Wire`: what was written, what of it has not arrived, and the connection it arrives at.
* `Sent.Fits.loads_text`, `Sent.Fits.loads_part`: a line is read back, and a part of it is not.
* `Carried`: what has arrived or is on its way are the lines that have not been read.
* `wire_delivers`: the messages come to `_dispatch` one by one and in order, however the lines are
  cut, and wherever they break off.
-/

namespace P2Pearl

/-! ### What is written -/

/-- `PROTOCOL_VERSION`. -/
def protocolVersion : ℤ := 1

/-- The dictionary of a message, with the port and the tip that a `hello` tells. -/
def Message.dict (port : ℕ) (tip : Option Hash32) : Message → List (PyStr × Json)
  | .hello height => [("t".toList, .str "hello".toList), ("v".toList, .int protocolVersion),
      ("port".toList, .int port), ("tip".toList, .str ((tip.map Hash32.hex).getD [])),
      ("height".toList, .int height)]
  | .share wire => [("t".toList, .str "share".toList), ("share".toList, .str wire)]
  | .getproof id => [("t".toList, .str "getproof".toList), ("id".toList, .str id)]
  | .proof id b64 => [("t".toList, .str "proof".toList), ("id".toList, .str id),
      ("proof".toList, .str b64)]
  | .getshares fromHeight =>
      [("t".toList, .str "getshares".toList), ("from".toList, .int fromHeight)]
  | .shares pairs => [("t".toList, .str "shares".toList),
      ("shares".toList, .arr (pairs.map fun p => .arr [.str p.1, .str p.2]))]
  | .block hex => [("t".toList, .str "block".toList), ("block".toList, .str hex)]

/-- What a node writes: a message, or the addresses it knows. -/
inductive Sent where
  | message (port : ℕ) (tip : Option Hash32) (m : Message)
  | peers (addrs : List (Json × ℤ))

namespace Sent

/-- The dictionary that is written. -/
def dict : Sent → List (PyStr × Json)
  | message port tip m => m.dict port tip
  | peers addrs => [("t".toList, .str "peers".toList),
      ("peers".toList, .arr (addrs.map fun a => .arr [a.1, .int a.2]))]

/-- What its peer receives; the handler of addresses is left out. -/
def incoming : Sent → Incoming
  | message _ _ m => m.incoming
  | peers _ => {}

variable (R : Platform)

/-- The text of a dictionary. -/
def text (s : Sent) : PyStr := Json.dumps R.floatText (.obj s.dict)

/-- A character as a byte. -/
def byte (c : Char) : UInt8 := UInt8.ofNat c.toNat

/-- `_encode`. -/
def line (s : Sent) : Bytes := (s.text R).map byte ++ [newline]

/-- What a peer can read: its text is within the limit, it has no floats, and its integers are not
too long. -/
structure Fits (s : Sent) : Prop where
  plain : Json.Plain 3 (.obj s.dict)
  short : (s.text R).length ≤ P2PNode.readLimit

end Sent

/-- A peer finds in the dictionary what it is to find. -/
lemma ofJson_dict (s : Sent) : Incoming.ofJson (.obj s.dict) = some s.incoming := by
  cases s with
  | message port tip m => cases m <;> rfl
  | peers addrs => rfl

/-- The line of a message but a `hello` is the one whose length is known. -/
lemma line_eq_lineOf (R : Platform) (port : ℕ) (tip : Option Hash32) {m : Message}
    (hm : ∀ height, m ≠ .hello height) :
    (Sent.message port tip m).line R = PeerConn.lineOf m := by
  have hfields : Json.dumpsFields R.floatText (m.dict port tip) = m.fields := by
    cases m with
    | hello height => exact absurd rfl (hm height)
    | shares pairs =>
        simp [Message.dict, Message.fields, Json.dumpsFields, Json.dumps, Json.dumpsItems_eq,
          Function.comp_def]
    | _ => simp [Message.dict, Message.fields, Json.dumpsFields, Json.dumps]
  rw [PeerConn.lineOf, Message.encode, List.map_append, ← hfields]
  rfl

/-! ### What is read -/

section Reading

variable {R : Platform} {s : Sent}

/-- ASCII text without a null is read as it is. -/
lemma Platform.loads_byte {t : PyStr} (ht : ∀ c ∈ t, 0 < c.toNat ∧ c.toNat < 128) :
    R.loads (t.map Sent.byte) = Json.loads R.floatOf R.depth t := by
  have hbyte : ∀ c ∈ t, (Sent.byte c).toNat = c.toNat := fun c hc => by
    rw [Sent.byte, UInt8.toNat_ofNat']
    exact Nat.mod_eq_of_lt ((ht c hc).2.trans (by omega))
  have hall : ((t.map Sent.byte).all fun b => 0 < b.toNat ∧ b.toNat < 128) = true := by
    rw [List.all_eq_true]
    intro b hb
    obtain ⟨c, hc, rfl⟩ := List.mem_map.mp hb
    rw [hbyte c hc]
    exact decide_eq_true (ht c hc)
  have hback : (t.map Sent.byte).map (fun b => Char.ofNat b.toNat) = t := by
    rw [List.map_map]
    conv_rhs => rw [← List.map_id t]
    refine List.map_congr_left fun c hc => ?_
    rw [Function.comp_apply, hbyte c hc, Char.ofNat_toNat, id]
  rw [Platform.loads, if_pos hall, hback]
  rfl

lemma printable_bounds {t : PyStr} (ht : Json.IsPrintable t) {c : Char} (hc : c ∈ t) :
    0 < c.toNat ∧ c.toNat < 128 := by
  have := ht c hc
  omega

namespace Sent.Fits

variable (h : s.Fits R)

include h

lemma isPrintable : Json.IsPrintable (s.text R) := h.plain.isPrintable R.floatText

/-- There is no newline in a text. -/
lemma newline_notMem : newline ∉ (s.text R).map Sent.byte := fun hmem => by
  obtain ⟨c, hc, hbyte⟩ := List.mem_map.mp hmem
  have hbounds := h.isPrintable c hc
  have hcode := congrArg UInt8.toNat hbyte
  rw [Sent.byte, UInt8.toNat_ofNat', Nat.mod_eq_of_lt (by omega)] at hcode
  rw [hcode] at hbounds
  exact absurd hbounds.1 (by decide)

/-- A text is read back, also behind its newline. -/
lemma loads_text (hdepth : 3 ≤ R.depth) :
    R.loads ((s.text R).map Sent.byte) = some (.obj s.dict)
      ∧ R.loads (s.line R) = some (.obj s.dict) := by
  have hplain := h.plain.mono hdepth
  have hline : s.line R = (s.text R ++ [Char.ofNat 0x0a]).map Sent.byte := by
    rw [List.map_append]
    rfl
  constructor
  · rw [Platform.loads_byte fun c hc => printable_bounds h.isPrintable hc,
      ← List.append_nil (s.text R)]
    exact Json.loads_dumps _ _ hplain rfl
  · rw [hline, Platform.loads_byte fun c hc => ?_]
    · exact Json.loads_dumps _ _ hplain rfl
    · rcases List.mem_append.mp hc with hc | hc
      · exact printable_bounds h.isPrintable hc
      · rw [List.mem_singleton.mp hc]
        decide

/-- A part of a text is not read. -/
lemma loads_part (hdepth : 3 ≤ R.depth) {part : Bytes} (hpart : part <+: (s.text R).map Sent.byte)
    (hne : part ≠ (s.text R).map Sent.byte) : R.loads part = none := by
  obtain ⟨t, ht, rfl⟩ := List.prefix_map_iff.mp hpart
  rw [Platform.loads_byte fun c hc => printable_bounds h.isPrintable (ht.subset hc)]
  exact Json.loads_of_prefix _ _ (h.plain.mono hdepth) ht fun heq => hne (by rw [heq]; rfl)

omit h in
/-- A text that has begun is not blank. -/
lemma not_isBlank {part more : Bytes} (hpart : part <+: (s.text R).map Sent.byte)
    (hne : part ≠ []) : isBlank (part ++ more) = false := by
  obtain ⟨b, part, rfl⟩ := List.exists_cons_of_ne_nil hne
  obtain ⟨tail, htail⟩ := hpart
  have hb : b = Sent.byte '{' := (List.cons.inj htail).1
  rw [isBlank, hb, List.cons_append, List.all_cons]
  rfl

end Sent.Fits

end Reading

/-! ### The wire -/

/-- One direction of a connection: what was written, what of it has not arrived, and the connection
at which it arrives. -/
structure Wire where
  written : List Sent := []
  transit : Bytes := []
  conn : PeerConn := {}

namespace Wire

/-- What can happen: something is written, a number of bytes arrives, the stream ends with what has
arrived by then, the loop goes round, or the connection is lost. -/
inductive Event where
  | write (s : Sent)
  | arrive (n : ℕ)
  | finish
  | turn (now : ℚ)
  | fail

variable (R : Platform) (W : Wire)

/-- Something has happened at the connection. -/
def after (conn : PeerConn) : Wire := { W with conn }

/-- A line is written. -/
def write (s : Sent) : Wire :=
  { W with written := W.written ++ [s], transit := W.transit ++ s.line R }

/-- One event, where it can happen. -/
def step : Event → Option Wire
  | .write s => if W.conn.eof then none else some (W.write R s)
  | .arrive n =>
      (W.conn.step R (.arrive (W.transit.take n))).map fun conn =>
        { W with transit := W.transit.drop n, conn }
  | .finish => (W.conn.step R .finish).map W.after
  | .turn now => (W.conn.step R (.turn now)).map W.after
  | .fail => (W.conn.step R .fail).map W.after

/-- What has not been read is in the buffer or on its way, unless the stream has ended within a
line and the part of it has been read. -/
structure Pending (W : Wire) (unread : List Sent) : Prop where
  count : W.conn.count = W.conn.taken.length
  stream : W.conn.buffer ++ W.transit = unread.flatMap (Sent.line R)

/-- The messages written are those taken and those unread, and a connection is closed for one of
the reasons a connection of this kind is closed for. -/
structure Carried (W : Wire) (unread : List Sent) : Prop where
  split : W.written.map Sent.incoming
    = W.conn.taken.map Prod.fst ++ unread.map Sent.incoming
  fits : ∀ s ∈ unread, s.Fits R
  pending : W.conn.closed = none →
    W.Pending R unread ∨ W.conn.eof = true ∧ W.conn.buffer = [] ∧ W.transit ≠ []
  ended : W.conn.closed = some .ended →
    W.conn.eof = true ∧ (W.transit = [] → unread = [])
  flooding : W.conn.closed = some .flooding → maxMsgsPerConn < W.written.length
  dropped : W.conn.closed = some .dropped → ∃ msg, (msg, .dropped) ∈ W.conn.taken
  sound : W.conn.closed ≠ some .oversized ∧ W.conn.closed ≠ some .raised

/-- A round takes the next message, or none. -/
def Took (W : Wire) (C : PeerConn) (unread left : List Sent) : Prop :=
  left = unread ∧ C.taken = W.conn.taken
    ∨ ∃ s outcome, unread = s :: left ∧ C.taken = W.conn.taken ++ [(s.incoming, outcome)]

variable {R W} {W' : Wire} {unread : List Sent} {now : ℚ}

/-- What there is to say of a connection that is open. -/
lemma Carried.of_open (hopen : W.conn.closed = none)
    (split : W.written.map Sent.incoming
      = W.conn.taken.map Prod.fst ++ unread.map Sent.incoming)
    (fits : ∀ s ∈ unread, s.Fits R)
    (pending : W.Pending R unread
      ∨ W.conn.eof = true ∧ W.conn.buffer = [] ∧ W.transit ≠ []) : Carried R W unread :=
  ⟨split, fits, fun _ => pending, by simp [hopen], by simp [hopen], by simp [hopen],
    by simp [hopen]⟩

/-- A message is taken. -/
lemma Carried.dispatch {s : Sent} {rest : Bytes} (h : Carried R W (s :: unread))
    (hopen : W.conn.closed = none) (hcount : W.conn.count = W.conn.taken.length)
    (hrest : rest ++ W.transit = unread.flatMap (Sent.line R)
      ∨ W.conn.eof = true ∧ rest = [] ∧ W.transit ≠ []) :
    ∃ C, { W.conn with buffer := rest, count := W.conn.count + 1 }.dispatch (.obj s.dict) now = C
      ∧ Carried R (W.after C) unread ∧ W.Took C (s :: unread) unread := by
  rw [PeerConn.dispatch, ofJson_dict]
  dsimp only
  generalize W.conn.gate.dispatch ⟨s.incoming.kind, now⟩ = result
  obtain ⟨gate, outcome⟩ := result
  have hfits := fun t ht => h.fits t (List.mem_cons_of_mem s ht)
  have hsplit : W.written.map Sent.incoming
      = (W.conn.taken ++ [(s.incoming, outcome)]).map Prod.fst ++ unread.map Sent.incoming := by
    rw [h.split]
    simp
  refine ⟨_, rfl, ?_, Or.inr ⟨s, outcome, rfl, rfl⟩⟩
  by_cases hdropped : outcome = .dropped
  · simp only [after, hdropped, if_true]
    rw [hdropped] at hsplit
    exact ⟨hsplit, hfits, by simp, by simp, by simp, fun _ => ⟨_, List.mem_concat_self⟩, by simp⟩
  · simp only [after, if_neg hdropped, hopen]
    refine .of_open rfl hsplit hfits (hrest.imp (fun hstream => ⟨?_, hstream⟩) id)
    rw [List.length_append, List.length_singleton, ← hcount]

/-- The connection is closed, by a round that takes no message. -/
lemma Carried.close {C : PeerConn} (h : Carried R W unread) (htaken : C.taken = W.conn.taken)
    (hended : C.closed = some .ended ∧ C.eof = true ∧ (W.transit = [] → unread = [])
      ∨ C.closed = some .flooding ∧ maxMsgsPerConn < W.written.length
      ∨ C.closed = some .lost) :
    Carried R (W.after C) unread := by
  have hsplit : (W.after C).written.map Sent.incoming
      = (W.after C).conn.taken.map Prod.fst ++ unread.map Sent.incoming := by
    rw [after, htaken]
    exact h.split
  rcases hended with ⟨hclosed, heof, hall⟩ | ⟨hclosed, hmany⟩ | hclosed
  · exact ⟨hsplit, h.fits, by simp [after, hclosed], fun _ => ⟨heof, hall⟩,
      by simp [after, hclosed], by simp [after, hclosed], by simp [after, hclosed]⟩
  · exact ⟨hsplit, h.fits, by simp [after, hclosed], by simp [after, hclosed], fun _ => hmany,
      by simp [after, hclosed], by simp [after, hclosed]⟩
  · exact ⟨hsplit, h.fits, by simp [after, hclosed], by simp [after, hclosed],
      by simp [after, hclosed], by simp [after, hclosed], by simp [after, hclosed]⟩

/-- A message that has not been taken was written. -/
lemma Carried.length_taken_lt {s : Sent} (h : Carried R W (s :: unread)) :
    W.conn.taken.length < W.written.length := by
  have hlength := congrArg List.length h.split
  simp only [List.length_append, List.length_map, List.length_cons] at hlength
  omega

/-- A line of a message is taken, or is one too many. -/
lemma Carried.takeLine {s : Sent} {line rest : Bytes} (h : Carried R W (s :: unread))
    (hopen : W.conn.closed = none) (hcount : W.conn.count = W.conn.taken.length)
    (hne : line ≠ []) (hblank : isBlank line = false) (hloads : R.loads line = some (.obj s.dict))
    (hrest : rest ++ W.transit = unread.flatMap (Sent.line R)
      ∨ W.conn.eof = true ∧ rest = [] ∧ W.transit ≠ []) :
    ∃ left, Carried R (W.after ({ W.conn with buffer := rest }.takeLine R line now)) left
      ∧ W.Took ({ W.conn with buffer := rest }.takeLine R line now) (s :: unread) left := by
  rw [PeerConn.takeLine, if_neg hne, hblank, if_neg Bool.false_ne_true]
  split_ifs with hflood
  · have hlt := h.length_taken_lt
    dsimp only at hflood
    exact ⟨_, h.close rfl (Or.inr (Or.inl ⟨rfl, by omega⟩)), Or.inl ⟨rfl, rfl⟩⟩
  · rw [hloads]
    obtain ⟨C, hC, hcarried⟩ := h.dispatch hopen hcount hrest
    exact ⟨_, hC ▸ hcarried⟩

/-- A part of a line is skipped, or is one too many. -/
lemma Carried.skipPart {s : Sent} {part : Bytes} (h : Carried R W (s :: unread))
    (hopen : W.conn.closed = none) (hcount : W.conn.count = W.conn.taken.length)
    (heof : W.conn.eof = true) (htransit : W.transit ≠ []) (hne : part ≠ [])
    (hblank : isBlank part = false) (hloads : R.loads part = none) :
    ∃ left, Carried R (W.after ({ W.conn with buffer := [] }.takeLine R part now)) left
      ∧ W.Took ({ W.conn with buffer := [] }.takeLine R part now) (s :: unread) left := by
  rw [PeerConn.takeLine, if_neg hne, hblank, if_neg Bool.false_ne_true]
  split_ifs with hflood
  · have hlt := h.length_taken_lt
    dsimp only at hflood
    exact ⟨_, h.close rfl (Or.inr (Or.inl ⟨rfl, by omega⟩)), Or.inl ⟨rfl, rfl⟩⟩
  · rw [hloads]
    exact ⟨_, .of_open hopen h.split h.fits (Or.inr ⟨heof, rfl, htransit⟩), Or.inl ⟨rfl, rfl⟩⟩

/-- Either the next line has arrived, or a part of it without the newline. -/
lemma Pending.cases {s : Sent} (h : W.Pending R (s :: unread)) :
    (∃ rest, W.conn.buffer = (s.text R).map Sent.byte ++ newline :: rest
        ∧ rest ++ W.transit = unread.flatMap (Sent.line R))
      ∨ W.conn.buffer <+: (s.text R).map Sent.byte ∧ W.transit ≠ [] := by
  have hstream := h.stream
  rw [List.flatMap_cons, Sent.line, List.append_eq_append_iff] at hstream
  rcases hstream with ⟨tail, hline, htransit⟩ | ⟨rest, hbuffer, hrest⟩
  · rcases List.eq_nil_or_concat tail with rfl | ⟨front, c, rfl⟩
    · rw [List.append_nil] at hline
      rw [List.nil_append] at htransit
      exact Or.inl ⟨[], hline.symm, htransit⟩
    · rw [List.concat_eq_append, ← List.append_assoc] at hline
      exact Or.inr ⟨⟨front, (List.append_inj' hline rfl).1.symm⟩, by rw [htransit]; simp⟩
  · rw [List.append_assoc, List.singleton_append] at hbuffer
    exact Or.inl ⟨rest, hbuffer, hrest.symm⟩

/-- At the end of a stream that has been read the connection is closed. -/
lemma Carried.finish {C : PeerConn} (h : Carried R W unread) (heof : W.conn.eof = true)
    (hbuffer : W.conn.buffer = []) (hall : W.transit = [] → unread = [])
    (hopen : ¬W.conn.closed.isSome) (hturn : W.conn.turn R now = some C) :
    ∃ left, Carried R (W.after C) left ∧ W.Took C unread left := by
  have hlast : readline newline P2PNode.readLimit W.conn.eof W.conn.buffer = .line [] [] := by
    rw [heof, hbuffer]
    rfl
  rw [PeerConn.turn, if_neg hopen, hlast] at hturn
  cases hturn
  exact ⟨_, h.close rfl (Or.inl ⟨rfl, heof, hall⟩), Or.inl ⟨rfl, rfl⟩⟩

/-- A round of the loop. -/
lemma Carried.turn {C : PeerConn} (h : Carried R W unread) (hdepth : 3 ≤ R.depth)
    (hturn : W.conn.turn R now = some C) :
    ∃ left, Carried R (W.after C) left ∧ W.Took C unread left := by
  have hclosed : ¬W.conn.closed.isSome := fun hclosed => by
    rw [PeerConn.turn, if_pos hclosed] at hturn
    cases hturn
  have hopen : W.conn.closed = none := by simpa using hclosed
  rcases h.pending hopen with hpending | ⟨heof, hbuffer, htransit⟩
  · cases unread with
    | nil =>
        obtain ⟨hbuffer, -⟩ := List.append_eq_nil_iff.mp hpending.stream
        cases heof : W.conn.eof with
        | true => exact h.finish heof hbuffer (fun _ => rfl) hclosed hturn
        | false =>
            rw [PeerConn.turn, if_neg hclosed, heof, hbuffer] at hturn
            cases hturn
    | cons s unread =>
        have hs := h.fits s List.mem_cons_self
        have hshort : ((s.text R).map Sent.byte).length ≤ P2PNode.readLimit := by
          rw [List.length_map]
          exact hs.short
        rcases hpending.cases with ⟨rest, hbuffer, hrest⟩ | ⟨hpart, htransit⟩
        · -- the whole line has arrived
          rw [PeerConn.turn, if_neg hclosed, hbuffer,
            readline_line hs.newline_notMem hshort rest] at hturn
          cases hturn
          have hblank : isBlank ((s.text R).map Sent.byte ++ [newline]) = false :=
            Sent.Fits.not_isBlank List.prefix_rfl (by simp [Sent.text, Json.dumps, dumpsDict])
          exact h.takeLine hopen hpending.count (by simp) hblank (hs.loads_text hdepth).2
            (Or.inl hrest)
        · have hfound : readline newline P2PNode.readLimit W.conn.eof W.conn.buffer
              = if W.conn.eof then .line W.conn.buffer [] else .wait :=
            readline_of_prefix hs.newline_notMem hshort hpart
          cases heof : W.conn.eof with
          | false =>
              rw [PeerConn.turn, if_neg hclosed, hfound, heof] at hturn
              cases hturn
          | true =>
              by_cases hbuffer : W.conn.buffer = []
              · exact h.finish heof hbuffer (fun hnil => absurd hnil htransit) hclosed hturn
              · -- the stream has ended within the line
                rw [if_pos heof] at hfound
                rw [PeerConn.turn, if_neg hclosed, hfound] at hturn
                cases hturn
                have hblank : isBlank (W.conn.buffer ++ []) = false :=
                  Sent.Fits.not_isBlank hpart hbuffer
                rw [List.append_nil] at hblank
                by_cases hwhole : W.conn.buffer = (s.text R).map Sent.byte
                · exact h.takeLine hopen hpending.count hbuffer hblank
                    (hwhole ▸ (hs.loads_text hdepth).1) (Or.inr ⟨heof, rfl, htransit⟩)
                · exact h.skipPart hopen hpending.count heof htransit hbuffer hblank
                    (hs.loads_part hdepth hpart hwhole)
  · exact h.finish heof hbuffer (fun hnil => absurd hnil htransit) hclosed hturn

/-- A line is written. -/
lemma Carried.write {s : Sent} (h : Carried R W unread) (heof : W.conn.eof = false)
    (hs : s.Fits R) : Carried R (W.write R s) (unread ++ [s]) := by
  refine ⟨by simp [Wire.write, h.split], fun t ht => ?_, fun hopen => ?_, fun hended => ?_,
    fun hflood => ?_, h.dropped, h.sound⟩
  · exact (List.mem_append.mp ht).elim (h.fits t) fun ht => List.mem_singleton.mp ht ▸ hs
  · refine (h.pending hopen).imp (fun hpending => ⟨hpending.count, ?_⟩) fun hlast => ?_
    · rw [Wire.write, ← List.append_assoc, hpending.stream]
      simp
    · exact absurd (heof.symm.trans hlast.1) Bool.false_ne_true
  · exact absurd (heof.symm.trans (h.ended hended).1) Bool.false_ne_true
  · exact (h.flooding hflood).trans (by simp [Wire.write])

/-- Something arrives, or the stream ends. -/
lemma Carried.arrived {more left : Bytes} {eof : Bool} (h : Carried R W unread)
    (hopen : W.conn.closed = none) (heof : W.conn.eof = false)
    (htransit : W.transit = more ++ left) :
    Carried R { W with transit := left, conn := W.conn.arrived more eof } unread := by
  obtain ⟨hcount, hstream⟩ := (h.pending hopen).resolve_right
    fun hlast => Bool.false_ne_true (heof.symm.trans hlast.1)
  refine .of_open hopen h.split h.fits (Or.inl ⟨hcount, ?_⟩)
  rw [← hstream, htransit, PeerConn.arrived, List.append_assoc]

/-- An event. -/
lemma Carried.step {e : Event} (h : Carried R W unread) (hdepth : 3 ≤ R.depth)
    (hfits : ∀ s ∈ W'.written, s.Fits R) (hstep : W.step R e = some W') :
    ∃ left, Carried R W' left := by
  cases e with
  | write s =>
      rw [Wire.step] at hstep
      split_ifs at hstep with heof
      cases hstep
      exact ⟨_, h.write (Bool.eq_false_iff.mpr heof) (hfits s (by simp [Wire.write]))⟩
  | arrive n =>
      obtain ⟨C, hC, rfl⟩ := Option.map_eq_some_iff.mp hstep
      obtain ⟨⟨hopen, heof⟩, rfl⟩ := (PeerConn.step_eq_some_iff_of_arrives rfl).mp hC
      exact ⟨_, h.arrived hopen heof (List.take_append_drop n W.transit).symm⟩
  | finish =>
      obtain ⟨C, hC, rfl⟩ := Option.map_eq_some_iff.mp hstep
      obtain ⟨⟨hopen, heof⟩, rfl⟩ := (PeerConn.step_eq_some_iff_of_arrives rfl).mp hC
      exact ⟨_, h.arrived hopen heof rfl⟩
  | fail =>
      obtain ⟨C, hC, rfl⟩ := Option.map_eq_some_iff.mp hstep
      rw [PeerConn.step] at hC
      split_ifs at hC
      cases hC
      exact ⟨_, h.close rfl (Or.inr (Or.inr rfl))⟩
  | turn now =>
      obtain ⟨C, hC, rfl⟩ := Option.map_eq_some_iff.mp hstep
      rw [PeerConn.step] at hC
      split_ifs at hC
      obtain ⟨left, hleft, -⟩ := h.turn hdepth hC
      exact ⟨left, hleft⟩

/-- Nothing is left where nothing is on its way and the loop waits. -/
lemma Carried.eq_nil (h : Carried R W unread) (htransit : W.transit = [])
    (hopen : W.conn.closed = none) (hwait : W.conn.turn R now = none) : unread = [] := by
  rcases h.pending hopen with hpending | ⟨-, -, hne⟩
  · cases unread with
    | nil => rfl
    | cons s unread =>
        have hs := h.fits s List.mem_cons_self
        have hshort : ((s.text R).map Sent.byte).length ≤ P2PNode.readLimit := by
          rw [List.length_map]
          exact hs.short
        rcases hpending.cases with ⟨rest, hbuffer, -⟩ | ⟨-, hne⟩
        · rw [PeerConn.turn, if_neg (by simp [hopen]), hbuffer,
            readline_line hs.newline_notMem hshort rest] at hwait
          cases hwait
        · exact absurd htransit hne
  · exact absurd htransit hne

end Wire

end P2Pearl
