import Highway.Servlet.Exact

/-!
# Well-formed requests

The requests of clients that keep to the protocol, as text with the data it stands for
(`Message`), and what the head reader makes of them: method, uri and headers are the request's
own, and the body and what follows it are left (`Message.headScan_bytes`).
-/

namespace Highway

open Lib

/-- A non-empty string of visible characters. -/
def Visible (bs : Bytes) : Prop := bs ≠ [] ∧ ∀ b ∈ bs, 33 ≤ b ∧ b ≤ 126

instance (bs : Bytes) : Decidable (Visible bs) := inferInstanceAs (Decidable (_ ∧ _))

/-- Letters without their case. -/
def lowercase (bs : Bytes) : Bytes := bs.map fun b => if 65 ≤ b ∧ b ≤ 90 then b + 32 else b

/-- A header as it is written: blanks may stand around the value. -/
structure Field where
  name : Bytes
  value : Bytes
  before : Bytes
  behind : Bytes
  name_visible : Visible name
  name_colon : 58 ∉ name
  value_line : ∀ b ∈ value, b ≠ CR ∧ b ≠ LF
  value_head : ∀ b ∈ value.head?, HiwString.isspace b = false
  value_last : ∀ b ∈ value.getLast?, HiwString.isspace b = false
  blanks : ∀ b ∈ before ++ behind, b = 32 ∨ b = 9

/-- The line of a header, without its line feed. -/
def Field.line (f : Field) : Bytes := f.name ++ 58 :: (f.before ++ (f.value ++ (f.behind ++ [CR])))

/-- A request of a client that keeps its connection: the length of a body is given by a
Content-Length header. -/
structure Message where
  method : Bytes
  uri : Bytes
  fields : List Field
  body : Bytes
  method_visible : Visible method
  uri_visible : Visible uri
  keepAlive : (∃ f ∈ fields, f.name = ascii "Connection") ∧
    ∀ f ∈ fields, f.name = ascii "Connection" → f.value = ascii "keep-alive"
  lengths : ∀ f ∈ fields, lowercase f.name = ascii "content-length" → Numeral body.length f.value
  framed : body ≠ [] → ∃ f ∈ fields, lowercase f.name = ascii "content-length"

namespace Message

/-- The status line, without its line feed. -/
def status (m : Message) : Bytes := m.method ++ 32 :: (m.uri ++ 32 :: (ascii "HTTP/1.1" ++ [CR]))

/-- The bytes of the request. -/
def bytes (m : Message) : Bytes :=
  unlines LF (m.status :: m.fields.map Field.line ++ [[CR]]) ++ m.body

/-- Names and values of the headers. -/
def headers (m : Message) : List (Bytes × Bytes) := m.fields.map fun f => (f.name, f.value)

/-- What the head reader makes of the head. -/
def head (m : Message) : Head :=
  (m.fields.map Field.line).foldl Head.addLine (.ofStatusLine m.method m.uri)

end Message

/-! ### The lines -/

theorem Visible.word {bs : Bytes} (h : Visible bs) : Word bs := by
  refine ⟨h.1, fun b hb => ?_⟩
  obtain ⟨hlo, -⟩ := h.2 b hb
  have hne : ∀ c : UInt8, c < 33 → b ≠ c := by
    rintro c hc rfl
    exact absurd hlo (UInt8.not_le.2 hc)
  simp [HiwString.isspace, hne CR (by decide), hne LF (by decide), hne 32 (by decide),
    hne 9 (by decide)]

theorem headerFields_line (f : Field) : headerFields f.line = some (f.name, f.value) := by
  have hblank : ∀ b ∈ f.before ++ f.behind, HiwString.isspace b = true := by
    intro b hb
    rcases f.blanks b hb with rfl | rfl <;> decide
  have hvalue : trimWith HiwString.isspace LF (f.before ++ (f.value ++ (f.behind ++ [CR]))) =
      f.value := by
    rw [trimWith_of_next (by decide)]
    refine trim_append (fun b hb => hblank b (by simp [hb])) ?_ f.value_head f.value_last
    intro b hb
    rcases List.mem_append.1 hb with hb | hb
    · exact hblank b (by simp [hb])
    · rw [List.mem_singleton.1 hb]
      decide
  rw [headerFields, Field.line, fields_append f.name_colon, fields]
  simp only [hvalue, f.name_visible.word.trimWith]

theorem not_mem_line (f : Field) : LF ∉ f.line := by
  intro hmem
  have hblank : LF ∉ f.before ++ f.behind := by
    intro h
    rcases f.blanks _ h with h | h <;> exact absurd h (by decide)
  simp only [Field.line, List.mem_append, List.mem_cons, List.not_mem_nil, or_false] at hmem
  rcases hmem with h | h | h | h | h | h
  · exact f.name_visible.word.not_mem (by decide) h
  · exact absurd h (by decide)
  · exact hblank (by simp [h])
  · exact (f.value_line _ h).2 rfl
  · exact hblank (by simp [h])
  · exact absurd h (by decide)

/-! ### The head of a request -/

namespace Message

variable {cfg : Config}

theorem numeral_of_mem (m : Message) {h : Bytes × Bytes} (hmem : h ∈ m.headers)
    (hname : h.1 = ascii "Content-Length") : Numeral m.body.length h.2 := by
  obtain ⟨f, hf, rfl⟩ := List.mem_map.1 hmem
  have hname' : f.name = ascii "Content-Length" := hname
  exact m.lengths f hf (by rw [hname']; decide)

theorem goodLengths (m : Message) (hlen : m.body.length < 2 ^ 31) : GoodLengths m.headers := by
  intro h hmem hname
  obtain ⟨hne, hd, hv⟩ := m.numeral_of_mem hmem hname
  exact ⟨hne, hd, hv ▸ hlen⟩

theorem head_eq (m : Message) (hlen : m.body.length < 2 ^ 31) :
    m.head = .ofHeaders m.method m.uri m.headers := by
  rw [← Head.foldl_add (m.goodLengths hlen), head, headers, List.foldl_map, List.foldl_map]
  refine List.foldl_ext _ _ _ fun h f _ => ?_
  rw [Head.addLine, headerFields_line]

/-- **The head reader stops behind the head of a well-formed request.** -/
theorem headScan_bytes (m : Message) (hlen : m.body.length < 2 ^ 31)
    (hc : m.fields.length ≤ cfg.maxHeadersCount) (rest : Bytes) :
    headScan cfg (m.bytes ++ rest) = .stop (.accepted m.head []) (m.body ++ rest) := by
  rw [m.head_eq hlen, bytes, List.append_assoc]
  exact headScan_of_lines (m.method_visible.word.not_mem_status m.uri_visible.word)
    (m.method_visible.word.statusFields m.uri_visible.word)
    (fun f _ => ⟨not_mem_line f, headerFields_line f⟩) (m.goodLengths hlen) hc _

theorem lastClose_headers (m : Message) : lastClose m.headers = false := by
  obtain ⟨⟨f, hf, hname⟩, hkeep⟩ := m.keepAlive
  obtain ⟨value, hvalue⟩ := Option.ne_none_iff_exists'.1
    (lastValue_ne_none (List.mem_map_of_mem (f := fun f => (f.name, f.value)) hf))
  have hlast : lastValue (ascii "Connection") m.headers = some value := hname ▸ hvalue
  obtain ⟨g, hg, hpair⟩ := List.mem_map.1 (mem_of_lastValue hlast)
  obtain ⟨hgname, rfl⟩ := Prod.mk.inj hpair
  rw [lastClose, hlast, hkeep g hg hgname]
  decide

theorem lastLength_headers (m : Message) :
    lastLength m.headers = m.body.length ∨ lastLength m.headers = -1 := by
  unfold lastLength
  cases hlast : lastValue (ascii "Content-Length") m.headers with
  | none => exact .inr rfl
  | some value =>
    obtain ⟨-, -, hv⟩ := m.numeral_of_mem (mem_of_lastValue hlast) rfl
    exact .inl (congrArg Nat.cast hv)

end Message

end Highway
