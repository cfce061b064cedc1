import Sponge.Lib.Fields
import Sponge.TCPHeader

/-!
# Looking at headers (`libsponge/tcp_helpers/tcp_header.cc`)

Three functions look at a header and not at its bytes. `to_string` prints every field and its text is that of no
other header; `summary` prints four of the flags, the two sequence numbers and the window, and nothing else of
the header can be told from it (`texts_exact`). `operator==` leaves out the ports and the checksum: two headers
are equal for it exactly if their serialized forms agree outside these (`beq_iff_serialize`), as long as the data
offset fits its four bits.
-/

namespace Sponge.TCPHeader

open Fields BigEndian

/-- An unsigned number in a stream with the flag `std::hex`. -/
def hex (n : ℕ) : List Char := Nat.toDigits 16 n

def dec (n : ℕ) : List Char := Nat.toDigits 10 n

/-- A flag in a stream with the flag `std::boolalpha`. -/
def boolalpha (b : Bool) : List Char := if b then "true".toList else "false".toList

variable (h h' : TCPHeader)

def toString : List Char :=
  "TCP source port: ".toList ++ hex h.sport.toNat ++ ['\n'] ++
    "TCP dest port: ".toList ++ hex h.dport.toNat ++ ['\n'] ++
    "TCP seqno: ".toList ++ hex h.seqno.rawValue.toNat ++ ['\n'] ++
    "TCP ackno: ".toList ++ hex h.ackno.rawValue.toNat ++ ['\n'] ++
    "TCP doff: ".toList ++ hex h.doff.toNat ++ ['\n'] ++
    "Flags: urg: ".toList ++ boolalpha h.urg ++ " ack: ".toList ++ boolalpha h.ack ++
    " psh: ".toList ++ boolalpha h.psh ++ " rst: ".toList ++ boolalpha h.rst ++
    " syn: ".toList ++ boolalpha h.syn ++ " fin: ".toList ++ boolalpha h.fin ++ ['\n'] ++
    "TCP winsize: ".toList ++ hex h.win.toNat ++ ['\n'] ++
    "TCP cksum: ".toList ++ hex h.cksum.toNat ++ ['\n'] ++
    "TCP uptr: ".toList ++ hex h.uptr.toNat ++ ['\n']

/-- The letters of the flags in `summary`. -/
def letters (syn ack rst fin : Bool) : List Char :=
  (if syn then ['S'] else []) ++ (if ack then ['A'] else []) ++ (if rst then ['R'] else []) ++
    (if fin then ['F'] else [])

def summary : List Char :=
  "Header(flags=".toList ++ letters h.syn h.ack h.rst h.fin ++
    ",seqno=".toList ++ dec h.seqno.rawValue.toNat ++ ",ack=".toList ++ dec h.ackno.rawValue.toNat ++
    ",win=".toList ++ dec h.win.toNat ++ ")".toList

/-- `operator==`, without cksum, src and dst. -/
def beq : Bool :=
  h.seqno == h'.seqno && h.ackno == h'.ackno && h.doff == h'.doff && h.urg == h'.urg && h.ack == h'.ack &&
    h.psh == h'.psh && h.rst == h'.rst && h.syn == h'.syn && h.fin == h'.fin && h.win == h'.win &&
    h.uptr == h'.uptr

/-! ### The texts -/

def fields : List (List Char × List Char) :=
  [("TCP source port: ".toList, hex h.sport.toNat), (['\n'] ++ "TCP dest port: ".toList, hex h.dport.toNat),
    (['\n'] ++ "TCP seqno: ".toList, hex h.seqno.rawValue.toNat),
    (['\n'] ++ "TCP ackno: ".toList, hex h.ackno.rawValue.toNat), (['\n'] ++ "TCP doff: ".toList, hex h.doff.toNat),
    (['\n'] ++ "Flags: urg: ".toList, boolalpha h.urg), (" ack: ".toList, boolalpha h.ack),
    (" psh: ".toList, boolalpha h.psh), (" rst: ".toList, boolalpha h.rst), (" syn: ".toList, boolalpha h.syn),
    (" fin: ".toList, boolalpha h.fin), (['\n'] ++ "TCP winsize: ".toList, hex h.win.toNat),
    (['\n'] ++ "TCP cksum: ".toList, hex h.cksum.toNat), (['\n'] ++ "TCP uptr: ".toList, hex h.uptr.toNat)]

def summaryFields : List (List Char × List Char) :=
  [("Header(flags=".toList, letters h.syn h.ack h.rst h.fin), (",seqno=".toList, dec h.seqno.rawValue.toNat),
    (",ack=".toList, dec h.ackno.rawValue.toNat), (",win=".toList, dec h.win.toNat)]

theorem toString_eq_render : h.toString = render ['\n'] h.fields := by
  unfold toString fields
  repeat rw [render]
  simp only [List.append_assoc]

theorem summary_eq_render : h.summary = render ")".toList h.summaryFields := by
  unfold summary summaryFields
  repeat rw [render]
  simp only [List.append_assoc]

/-- The characters of the values of `to_string`. -/
def lowerOrDigit (c : Char) : Bool := c.isLower || c.isDigit

def letterOrDigit (c : Char) : Bool := c.isDigit || c == 'S' || c == 'A' || c == 'R' || c == 'F'

theorem lowerOrDigit_hex (n : ℕ) : ∀ c ∈ hex n, lowerOrDigit c = true :=
  forall_mem_toDigits (by decide) (by decide) n

theorem letterOrDigit_dec (n : ℕ) : ∀ c ∈ dec n, letterOrDigit c = true :=
  forall_mem_toDigits (by decide) (by decide) n

theorem lowerOrDigit_boolalpha (b : Bool) : ∀ c ∈ boolalpha b, lowerOrDigit c = true := by
  refine List.all_eq_true.1 ?_
  cases b <;> rfl

theorem letterOrDigit_letters (syn ack rst fin : Bool) : ∀ c ∈ letters syn ack rst fin, letterOrDigit c = true := by
  have hall : ∀ syn ack rst fin, (letters syn ack rst fin).all letterOrDigit = true := by decide
  exact List.all_eq_true.1 (hall syn ack rst fin)

theorem hex_inj {n m : ℕ} : hex n = hex m ↔ n = m := (toDigits_injective (by decide) (by decide)).eq_iff

theorem dec_inj {n m : ℕ} : dec n = dec m ↔ n = m := (toDigits_injective (by decide) (by decide)).eq_iff

theorem boolalpha_inj : ∀ {b c : Bool}, boolalpha b = boolalpha c ↔ b = c := by decide

theorem letters_inj : ∀ {syn ack rst fin syn' ack' rst' fin' : Bool},
    letters syn ack rst fin = letters syn' ack' rst' fin' ↔ syn = syn' ∧ ack = ack' ∧ rst = rst' ∧ fin = fin' := by
  decide

theorem fields_values : ∀ f ∈ h.fields, ∀ c ∈ f.2, lowerOrDigit c = true := by
  unfold fields
  repeat rw [List.forall_mem_cons]
  exact ⟨lowerOrDigit_hex _, lowerOrDigit_hex _, lowerOrDigit_hex _, lowerOrDigit_hex _, lowerOrDigit_hex _,
    lowerOrDigit_boolalpha _, lowerOrDigit_boolalpha _, lowerOrDigit_boolalpha _, lowerOrDigit_boolalpha _,
    lowerOrDigit_boolalpha _, lowerOrDigit_boolalpha _, lowerOrDigit_hex _, lowerOrDigit_hex _,
    lowerOrDigit_hex _, nofun⟩

theorem fields_labels : ∀ f ∈ h.fields, Ends lowerOrDigit f.1 := by
  unfold fields
  repeat rw [List.forall_mem_cons]
  exact ⟨⟨_, _, rfl, rfl⟩, ⟨_, _, rfl, rfl⟩, ⟨_, _, rfl, rfl⟩, ⟨_, _, rfl, rfl⟩, ⟨_, _, rfl, rfl⟩,
    ⟨_, _, rfl, rfl⟩, ⟨_, _, rfl, rfl⟩, ⟨_, _, rfl, rfl⟩, ⟨_, _, rfl, rfl⟩, ⟨_, _, rfl, rfl⟩,
    ⟨_, _, rfl, rfl⟩, ⟨_, _, rfl, rfl⟩, ⟨_, _, rfl, rfl⟩, ⟨_, _, rfl, rfl⟩, nofun⟩

theorem summaryFields_values : ∀ f ∈ h.summaryFields, ∀ c ∈ f.2, letterOrDigit c = true := by
  unfold summaryFields
  repeat rw [List.forall_mem_cons]
  exact ⟨letterOrDigit_letters _ _ _ _, letterOrDigit_dec _, letterOrDigit_dec _, letterOrDigit_dec _, nofun⟩

theorem summaryFields_labels : ∀ f ∈ h.summaryFields, Ends letterOrDigit f.1 := by
  unfold summaryFields
  repeat rw [List.forall_mem_cons]
  exact ⟨⟨_, _, rfl, rfl⟩, ⟨_, _, rfl, rfl⟩, ⟨_, _, rfl, rfl⟩, ⟨_, _, rfl, rfl⟩, nofun⟩

variable {h h'}

theorem toString_eq_iff : h.toString = h'.toString ↔ h = h' := by
  have hlabels : h.fields.map Prod.fst = h'.fields.map Prod.fst := rfl
  rw [toString_eq_render, toString_eq_render,
    render_eq_iff ⟨_, _, rfl, rfl⟩ hlabels h.fields_labels h.fields_values h'.fields_values]
  constructor
  · intro heq
    unfold fields at heq
    simp only [List.map_cons, List.map_nil, List.cons.injEq, hex_inj, boolalpha_inj, UInt16.toNat_inj,
      UInt32.toNat_inj, UInt8.toNat_inj, and_true] at heq
    obtain ⟨hsport, hdport, hseqno, hackno, hdoff, hurg, hack, hpsh, hrst, hsyn, hfin, hwin, hcksum, huptr⟩ := heq
    obtain ⟨_, _, ⟨_⟩, ⟨_⟩, _, _, _, _, _, _, _, _, _, _⟩ := h
    obtain ⟨_, _, ⟨_⟩, ⟨_⟩, _, _, _, _, _, _, _, _, _, _⟩ := h'
    subst hsport hdport hseqno hackno hdoff hurg hack hpsh hrst hsyn hfin hwin hcksum huptr
    rfl
  · rintro rfl
    rfl

/-- What `summary` shows. -/
structure SameSummary (h h' : TCPHeader) : Prop where
  syn : h.syn = h'.syn
  ack : h.ack = h'.ack
  rst : h.rst = h'.rst
  fin : h.fin = h'.fin
  seqno : h.seqno = h'.seqno
  ackno : h.ackno = h'.ackno
  win : h.win = h'.win

theorem wrappingInt32_eq_iff {a b : WrappingInt32} : a.rawValue = b.rawValue ↔ a = b := by
  cases a
  cases b
  simp

theorem summary_eq_iff : h.summary = h'.summary ↔ SameSummary h h' := by
  have hlabels : h.summaryFields.map Prod.fst = h'.summaryFields.map Prod.fst := rfl
  have htail : Ends letterOrDigit ")".toList := ⟨_, _, rfl, rfl⟩
  rw [summary_eq_render, summary_eq_render,
    render_eq_iff htail hlabels h.summaryFields_labels h.summaryFields_values h'.summaryFields_values]
  unfold summaryFields
  simp only [List.map_cons, List.map_nil, List.cons.injEq, letters_inj, dec_inj, UInt16.toNat_inj, UInt32.toNat_inj,
    wrappingInt32_eq_iff, and_true]
  constructor
  · rintro ⟨⟨hsyn, hack, hrst, hfin⟩, hseqno, hackno, hwin⟩
    exact ⟨hsyn, hack, hrst, hfin, hseqno, hackno, hwin⟩
  · intro hsame
    exact ⟨⟨hsame.syn, hsame.ack, hsame.rst, hsame.fin⟩, hsame.seqno, hsame.ackno, hsame.win⟩

/-- The text of a header is that of no other header, and its summary that of the headers with the same values in
seven fields. -/
theorem texts_exact (h h' : TCPHeader) :
    (h.toString = h'.toString ↔ h = h') ∧ (h.summary = h'.summary ↔ SameSummary h h') :=
  ⟨toString_eq_iff, summary_eq_iff⟩

/-! ### Equality and the bytes -/

/-- `h` with the fields of `h'` that `operator==` does not look at. -/
def adopt (h h' : TCPHeader) : TCPHeader := { h with sport := h'.sport, dport := h'.dport, cksum := h'.cksum }

theorem beq_iff : h.beq h' = true ↔ h.adopt h' = h' := by
  obtain ⟨_, _, _, _, _, _, _, _, _, _, _, _, _, _⟩ := h
  obtain ⟨_, _, _, _, _, _, _, _, _, _, _, _, _, _⟩ := h'
  simp only [beq, adopt, Bool.and_eq_true, beq_iff_eq, mk.injEq, true_and, and_assoc]

/-- The place is none of the ports and none of the checksum. -/
def Compared (i : ℕ) : Prop := 4 ≤ i ∧ i ≠ 16 ∧ i ≠ 17

theorem forall_compared_iff {l l' : List UInt8} : (∀ i, Compared i → l[i]? = l'[i]?) ↔
    (l.drop 4).take 12 = (l'.drop 4).take 12 ∧ l.drop 18 = l'.drop 18 := by
  constructor
  · intro hsame
    refine ⟨List.ext_getElem? fun j => ?_, List.ext_getElem? fun j => ?_⟩
    · rw [List.getElem?_take, List.getElem?_take]
      split
      · rw [List.getElem?_drop, List.getElem?_drop]
        exact hsame _ ⟨by omega, by omega, by omega⟩
      · rfl
    · rw [List.getElem?_drop, List.getElem?_drop]
      exact hsame _ ⟨by omega, by omega, by omega⟩
  · rintro ⟨hmid, hend⟩ i ⟨h4, h16, h17⟩
    rcases Nat.lt_or_ge i 16 with hi | hi
    · have hget := congrArg (·[i - 4]?) hmid
      simp only [List.getElem?_take, List.getElem?_drop, if_pos (show i - 4 < 12 by omega),
        show 4 + (i - 4) = i by omega] at hget
      exact hget
    · have hget := congrArg (·[i - 18]?) hend
      simp only [List.getElem?_drop, show 18 + (i - 18) = i by omega] at hget
      exact hget

/-- The bytes between the ports and the checksum. -/
def middle (h : TCPHeader) : List UInt8 :=
  bytes 4 h.seqno.rawValue.toNat ++ bytes 4 h.ackno.rawValue.toNat ++ [h.doff <<< 4, h.flags] ++ bytes 2 h.win.toNat

theorem fixedBytes_eq (h : TCPHeader) : h.fixedBytes =
    bytes 2 h.sport.toNat ++ bytes 2 h.dport.toNat ++ h.middle ++ bytes 2 h.cksum.toNat ++ bytes 2 h.uptr.toNat := by
  simp only [fixedBytes, beforeCksum, middle, List.append_assoc]

theorem beq_iff_bytes (hd : h.doff.toNat < 16) (hd' : h'.doff.toNat < 16) :
    h.beq h' = true ↔ h.middle = h'.middle ∧ bytes 2 h.uptr.toNat = bytes 2 h'.uptr.toNat := by
  rw [beq_iff]
  constructor
  · intro heq
    rw [← heq]
    exact ⟨rfl, rfl⟩
  · rintro ⟨hmid, huptr⟩
    have hbytes : (h.adopt h').fixedBytes = h'.fixedBytes := by
      rw [fixedBytes_eq, fixedBytes_eq h', ← hmid, ← huptr]
      rfl
    calc h.adopt h' = ofBytes (h.adopt h').fixedBytes := (ofBytes_fixedBytes (h := h.adopt h') hd).symm
      _ = ofBytes h'.fixedBytes := by rw [hbytes]
      _ = h' := ofBytes_fixedBytes hd'

/-- `operator==` compares what is serialized, but for the ports and the checksum. -/
theorem beq_iff_serialize (h h' : TCPHeader) (h5 : 5 ≤ h.doff.toNat) (h15 : h.doff.toNat ≤ 15)
    (h5' : 5 ≤ h'.doff.toNat) (h15' : h'.doff.toNat ≤ 15) :
    ∃ b b', h.serialize = .ok b ∧ h'.serialize = .ok b' ∧
      (h.beq h' = true ↔ ∀ i, Compared i → b[i]? = b'[i]?) := by
  refine ⟨_, _, serialize_eq h5, serialize_eq h5', ?_⟩
  rw [forall_compared_iff, beq_iff_bytes (by omega) (by omega)]
  show _ ↔ h.middle = h'.middle ∧ bytes 2 h.uptr.toNat ++ _ = bytes 2 h'.uptr.toNat ++ _
  refine and_congr_right fun hmid => ⟨fun huptr => ?_, fun hend => ?_⟩
  · have hdoff : h.doff = h'.doff := by
      have heq := beq_iff.1 ((beq_iff_bytes (by omega) (by omega)).2 ⟨hmid, huptr⟩)
      rw [← heq]
      rfl
    rw [huptr, hdoff]
  · exact (List.append_inj hend (by simp)).1

theorem beq_iff_serialize_ports :
    ∃ b b', init.serialize = .ok b ∧ serialize { init with sport := 7, cksum := 9 } = .ok b' ∧
      ∀ i, Compared i → b[i]? = b'[i]? := by
  obtain ⟨b, b', hb, hb', hiff⟩ := beq_iff_serialize init { init with sport := 7, cksum := 9 } (by decide) (by decide)
    (by decide) (by decide)
  exact ⟨b, b', hb, hb', hiff.1 (by decide)⟩

end Sponge.TCPHeader
