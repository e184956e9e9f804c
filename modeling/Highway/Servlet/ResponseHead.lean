import Highway.Servlet.ResponseChange

/-!
# The head of a response

What is put into the memory of a response is the text of its fields: the status line, and a line
for each accepted header (`HiwResponse.Text`).  The fields themselves stay well formed
(`HiwResponse.Table`), so a head that is handed over is the serialization of well-formed fields
(`HiwResponse.head_serialized`).

The text is known as long as the `Server` header, which a flush writes right in front of the empty
line, is not in the table.  A second flush fails at that header and does not get to the text.
-/

namespace Highway

open Lib

/-- The fields of a response that can be sent. -/
structure ResponseFields.WellFormed (cfg : Config) (fields : ResponseFields) : Prop where
  nodup : (fields.headers.map Prod.fst).Nodup
  count : fields.headers.length ≤ cfg.maxHeadersCount
  nonneg : 0 ≤ fields.contentLength
  length : fields.headers.filter (fun h => h.1 = ascii "Content-Length") =
    [(ascii "Content-Length", decimal fields.contentLength.toNat)]
  connection : fields.headers.filter (fun h => h.1 = ascii "Connection") =
    [(ascii "Connection", if fields.connectionClose then ascii "close" else ascii "keep-alive")]

/-- The head of a response with these fields. -/
def ResponseFields.head (fields : ResponseFields) : Bytes :=
  ascii "HTTP/1.1 " ++ ascii (HiwResponse.statusText fields.statusCode) ++ HiwResponse.crlf ++
    fields.headers.flatMap (fun h => h.1 ++ ascii ": " ++ h.2 ++ HiwResponse.crlf) ++
    HiwResponse.crlf

/-- The call hands over a head. -/
def Handed.isHead : Handed → Bool
  | .head .. => true
  | .body .. => false

namespace HiwResponse

variable {cfg : Config} {P : Op → Prop} {r r' : HiwResponse} {name value : Bytes}

/-! ### The header table -/

/-- The header table and what the flags say about it. -/
structure Table (cfg : Config) (P : Op → Prop) (r : HiwResponse) : Prop where
  nodup : (r.headers.map Prod.fst).Nodup
  count : r.headers.length ≤ cfg.maxHeadersCount
  length : r.flags.contentLengthSet = true →
    (ascii "Content-Length", lengthValue r.contentLength) ∈ r.headers ∧
      P (.setContentLength r.contentLength)
  connection : r.flags.connectionSet = true →
    (ascii "Connection", connectionValue r.connectionClose) ∈ r.headers

theorem table_start (m : Buf) (client : HiwClient) (close : Bool) :
    Table cfg P (start cfg m client close) :=
  ⟨List.nodup_nil, Nat.zero_le _, fun h => Bool.noConfusion h, fun h => Bool.noConfusion h⟩

theorem Table.accept (h : Table cfg P r) (hacc : r.Accepts cfg name) :
    Table cfg P (r.accept name value) := by
  refine ⟨?_, ?_, ?_, ?_⟩
  · rw [toResponseFields_accept]
    show ((r.headers ++ [(name, value)]).map Prod.fst).Nodup
    rw [List.map_append, List.nodup_append]
    refine ⟨h.nodup, List.nodup_singleton _, ?_⟩
    rintro _ hmem _ hname rfl
    obtain rfl : _ = name := by simpa using hname
    exact hacc.fresh hmem
  · have := hacc.count
    simp
    omega
  · intro hset
    obtain ⟨hmem, hP⟩ := h.length (by simpa using hset)
    simp [hmem, hP]
  · intro hset
    have hmem := h.connection (by simpa using hset)
    simp [hmem]

theorem Table.concluded (h : Table cfg P r)
    (hserver : cfg.writeServerHeader = true → r.Accepts cfg (serverHeaderName cfg)) :
    Table cfg P (r.concluded cfg) := by
  unfold HiwResponse.concluded
  split_ifs with hw
  · have hacc : Table cfg P (r.accept (serverHeaderName cfg) (serverHeaderValue cfg)) :=
      h.accept (hserver hw)
    exact ⟨hacc.nodup, hacc.count, hacc.length, hacc.connection⟩
  · exact ⟨h.nodup, h.count, h.length, h.connection⟩

/-- **The table stays well formed.** -/
theorem Table.change (hc : Change cfg P r r') (h : Table cfg P r) : Table cfg P r' := by
  cases hc with
  | fail => exact ⟨h.nodup, h.count, h.length, h.connection⟩
  | status => exact ⟨h.nodup, h.count, h.length, h.connection⟩
  | header name value hacc => exact h.accept hacc
  | length len hP hs hset hmem => exact ⟨h.nodup, h.count, fun _ => ⟨hmem, hP⟩, h.connection⟩
  | connection close hs hset hmem => exact ⟨h.nodup, h.count, h.length, fun _ => hmem⟩
  | head hP hs hlen hconn hserver =>
    have hc := h.concluded hserver
    obtain ⟨ok, client, heq⟩ := sendHead_eq (r.concluded cfg)
    rw [heq]
    refine ⟨hc.nodup, hc.count, fun hset => hc.length ?_, fun hset => hc.connection ?_⟩
    · cases ok <;> exact hset
    · cases ok <;> exact hset
  | body src n hP hs =>
    obtain ⟨ok, client, error, heq⟩ := sendBody_eq r src n
    rw [heq]
    exact ⟨h.nodup, h.count, h.length, h.connection⟩

theorem filter_eq_singleton {headers : List (Bytes × Bytes)}
    (hnodup : (headers.map Prod.fst).Nodup) (hmem : (name, value) ∈ headers) :
    headers.filter (fun h => h.1 = name) = [(name, value)] := by
  induction headers with
  | nil => cases hmem
  | cons h hs ih =>
    rw [List.map_cons, List.nodup_cons] at hnodup
    -- the entry is either this one, and no other has its name, or a later one, and this has another
    rcases List.mem_cons.1 hmem with rfl | hmem
    · rw [List.filter_cons_of_pos (by simp)]
      have hnone : hs.filter (fun h => h.1 = name) = [] := by
        rw [List.filter_eq_nil_iff]
        intro h hh hname
        have hname : h.1 = name := by simpa using hname
        exact hnodup.1 (List.mem_map.2 ⟨h, hh, hname⟩)
      rw [hnone]
    · have hne : h.1 ≠ name := by
        rintro rfl
        exact hnodup.1 (List.mem_map.2 ⟨_, hmem, rfl⟩)
      rw [List.filter_cons_of_neg (by simpa using hne)]
      exact ih hnodup.2 hmem

theorem lengthValue_eq {len : ℤ} (h₀ : 0 ≤ len) (h : len < 2 ^ 31) :
    lengthValue len = decimal len.toNat := by
  rw [lengthValue, Int.emod_eq_of_lt h₀ (by omega), uitoc_eq_decimal (by omega) (by omega)]
  rfl

/-- The lengths that `hiw_response_set_content_length` may be called with. -/
def NonnegLength : Op → Prop
  | .setContentLength len => 0 ≤ len ∧ len < 2 ^ 31
  | _ => True

instance : DecidablePred NonnegLength
  | .setContentLength len => inferInstanceAs (Decidable (0 ≤ len ∧ len < 2 ^ 31))
  | .setStatusCode _ | .writeHeader _ _ | .setContentType _ | .setConnectionClose _
  | .writeBodyRaw _ _ | .flushHeaders => inferInstanceAs (Decidable True)

theorem Table.wellFormed (h : Table cfg NonnegLength r) (hlen : r.flags.contentLengthSet = true)
    (hconn : r.flags.connectionSet = true) : r.toResponseFields.WellFormed cfg := by
  obtain ⟨hmem, h₀, hlt⟩ := h.length hlen
  rw [lengthValue_eq h₀ hlt] at hmem
  exact ⟨h.nodup, h.count, h₀, filter_eq_singleton h.nodup hmem,
    filter_eq_singleton h.nodup (h.connection hconn)⟩

/-! ### The text -/

/-- Where the memory is empty or holds the text of the fields, it holds that text once the status
line is written. -/
theorem content_begun_eq
    (hblank : r.flags.statusCodeSet = false → r.headers = [] ∧ r.content = [])
    (htext : r.flags.statusCodeSet = true →
      r.content = statusLine r.statusCode ++ r.headers.flatMap headerLine) :
    r.begun.content = statusLine r.statusCode ++ r.headers.flatMap headerLine := by
  rw [content_begun]
  split_ifs with hset
  · exact htext hset
  · obtain ⟨hheaders, hcontent⟩ := hblank (by simpa using hset)
    rw [hheaders, hcontent, List.flatMap_nil, List.append_nil, List.nil_append]

theorem content_accept_eq
    (h : r.begun.content = statusLine r.statusCode ++ r.headers.flatMap headerLine) :
    (r.accept name value).content = statusLine (r.accept name value).statusCode ++
      (r.accept name value).headers.flatMap headerLine := by
  rw [content_accept, h, toResponseFields_accept, List.append_assoc]
  show _ = statusLine r.statusCode ++ (r.headers ++ [(name, value)]).flatMap headerLine
  rw [List.flatMap_append, List.flatMap_singleton]

theorem content_append_crlf
    (h : r.content = statusLine r.statusCode ++ r.headers.flatMap headerLine) :
    (r.append crlf).content = r.toResponseFields.head := by
  have hline : headerLine = fun h => h.1 ++ ascii ": " ++ h.2 ++ crlf := by
    funext h
    simp [headerLine]
  rw [content_append, h]
  simp [ResponseFields.head, statusLine, hline]

/-- The memory holds the text of the fields, until a flush writes its `Server` header. -/
structure Text (cfg : Config) (r : HiwResponse) : Prop where
  blank : r.flags.statusCodeSet = false → r.headers = [] ∧ r.content = []
  text : r.flags.statusCodeSet = true → serverHeaderName cfg ∉ r.headers.map Prod.fst →
    r.content = statusLine r.statusCode ++ r.headers.flatMap headerLine

theorem text_start (m : Buf) (client : HiwClient) (close : Bool) :
    Text cfg (start cfg m client close) :=
  ⟨fun _ => ⟨rfl, rfl⟩, fun h => Bool.noConfusion h⟩

theorem Text.begun (h : Text cfg r) (hserver : serverHeaderName cfg ∉ r.headers.map Prod.fst) :
    r.begun.content = statusLine r.statusCode ++ r.headers.flatMap headerLine :=
  content_begun_eq h.blank fun hset => h.text hset hserver

theorem Text.accept (h : Text cfg r) : Text cfg (r.accept name value) := by
  refine ⟨fun hset => ?_, fun _ hserver => ?_⟩
  · -- accepting a header has written the status line
    simp at hset
  · refine content_accept_eq (h.begun fun hmem => hserver ?_)
    rw [toResponseFields_accept]
    show _ ∈ (r.headers ++ [(name, value)]).map Prod.fst
    rw [List.map_append]
    exact List.mem_append_left _ hmem

/-- The head that is handed over is the text of its fields. -/
theorem Text.concluded (h : Text cfg r) (hw : cfg.writeServerHeader = true)
    (hserver : serverHeaderName cfg ∉ r.headers.map Prod.fst) :
    (r.concluded cfg).content = (r.concluded cfg).toResponseFields.head := by
  unfold HiwResponse.concluded
  rw [if_pos hw]
  exact content_append_crlf (content_accept_eq (h.begun hserver))

theorem Text.change (hw : cfg.writeServerHeader = true) (hc : Change cfg P r r')
    (h : Text cfg r) : Text cfg r' := by
  cases hc with
  | fail => exact ⟨h.blank, h.text⟩
  | status status hs hset =>
    exact ⟨h.blank, fun hset' => absurd (hset.symm.trans hset') (by simp)⟩
  | header name value hacc => exact h.accept
  | length => exact ⟨h.blank, h.text⟩
  | connection => exact ⟨h.blank, h.text⟩
  | head hP hs hlen hconn hserver =>
    -- with the `Server` header in the table, nothing is claimed about the text any more
    obtain ⟨ok, client, heq⟩ := sendHead_eq (r.concluded cfg)
    rw [heq]
    refine ⟨fun hset => ?_, fun _ hfresh => ?_⟩
    · cases ok <;> simp [HiwResponse.concluded, hw] at hset
    · simp [hw] at hfresh
  | body src n hP hs =>
    obtain ⟨ok, client, error, heq⟩ := sendBody_eq r src n
    rw [heq]
    exact ⟨h.blank, h.text⟩

/-! ### The heads handed over -/

/-- The invariant of a response whose lengths are not negative. -/
structure Serialized (cfg : Config) (r : HiwResponse) : Prop where
  table : Table cfg NonnegLength r
  text : Text cfg r
  heads : ∀ fields bytes ok, .head fields bytes ok ∈ r.handed →
    bytes = fields.head ∧ fields.WellFormed cfg

theorem Serialized.change (hw : cfg.writeServerHeader = true)
    (hc : Change cfg NonnegLength r r') (h : Serialized cfg r) : Serialized cfg r' := by
  -- only the change that hands over a head has something to add to the heads
  refine ⟨h.table.change hc, h.text.change hw hc, ?_⟩
  cases hc with
  | fail => exact h.heads
  | status => exact h.heads
  | header name value hacc => simpa using h.heads
  | length => exact h.heads
  | connection => exact h.heads
  | head hP hs hlen hconn hserver =>
    obtain ⟨ok, client, heq⟩ := sendHead_eq (r.concluded cfg)
    rw [heq]
    intro fields bytes ok' hmem
    rcases List.mem_append.1 hmem with hmem | hmem
    · exact h.heads fields bytes ok' (by simpa using hmem)
    · obtain ⟨rfl, rfl, rfl⟩ : fields = (r.concluded cfg).toResponseFields ∧
          bytes = (r.concluded cfg).content ∧ ok' = ok := by simpa using hmem
      exact ⟨h.text.concluded hw (hserver hw).fresh,
        (h.table.concluded hserver).wellFormed (by simpa using hlen) (by simpa using hconn)⟩
  | body src n hP hs =>
    obtain ⟨ok, client, error, heq⟩ := sendBody_eq r src n
    rw [heq]
    intro fields bytes ok' hmem
    rcases List.mem_append.1 hmem with hmem | hmem
    · exact h.heads fields bytes ok' hmem
    · simp at hmem

theorem serialized_start (m : Buf) (client : HiwClient) (close : Bool) :
    Serialized cfg (start cfg m client close) :=
  ⟨table_start m client close, text_start m client close, fun _ _ _ h => by cases h⟩

/-- **Every head that is handed over is the text of well-formed fields.**  The fields are those
that the response has when `hiw_client_sendall` is called. -/
theorem head_serialized (hw : cfg.writeServerHeader = true) {m : Buf} {client : HiwClient}
    {close : Bool} {ops : List Op} (hlen : ∀ op ∈ ops, NonnegLength op)
    (hr : runLabels (step cfg) (start cfg m client close) ops = some r)
    {fields : ResponseFields} {bytes : Bytes} {ok : Bool}
    (hmem : .head fields bytes ok ∈ r.handed) :
    bytes = fields.head ∧ fields.WellFormed cfg := by
  have hinv : Serialized cfg r :=
    invariant_of_run (base_start m client close) hlen ⟨le_rfl, by decide⟩
      (serialized_start m client close) (fun _ _ hc h => h.change hw hc) hr
  exact hinv.heads fields bytes ok hmem

/-- A request answered with five bytes. -/
def helloRun : Option HiwResponse :=
  runLabels (step .default) (start .default (fun _ => 0) ⟨[], [.accept 200, .accept 5], []⟩ false)
    [.setStatusCode 200, .setContentType (ascii "text/plain"), .setContentLength 5,
      .writeBodyRaw (ascii "hello") 5]

theorem head_serialized_hello : ∃ r fields bytes ok, helloRun = some r ∧
    Handed.head fields bytes ok ∈ r.handed ∧ bytes = fields.head ∧
    fields.WellFormed .default := by
  obtain ⟨r, hr⟩ : ∃ r, helloRun = some r := Option.isSome_iff_exists.1 (by decide +kernel)
  have hheads : helloRun.any (fun r => r.handed.any Handed.isHead) = true := by decide +kernel
  rw [hr] at hheads
  obtain ⟨e, he, hhead⟩ := List.any_eq_true.1 hheads
  cases e with
  | head fields bytes ok =>
    exact ⟨r, fields, bytes, ok, hr, he, head_serialized rfl (by decide) hr he⟩
  | body => cases hhead

end HiwResponse

end Highway
