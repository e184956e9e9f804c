import Highway.Servlet.Chunks

/-!
# The grammar of a status line

A status line is a method, a blank, a uri, a blank and `HTTP/1.1`, and there may be a CR behind it
(`IsStatusLine`).  `hiw_internal_request_parse_status_line` cuts the line at its first two blanks
and trims the parts, but it does not look at what is left of method and uri, so it lets other lines
through as well: without a method or uri, with a tab or CR in them, or with any whitespace behind
the version.  On all other lines it decides by the grammar (`HiwRequest.parses_iff`).
-/

namespace Highway

open Lib HiwString

/-- `hiw_internal_request_parse_status_line` : its result, and the request afterwards. -/
def HiwRequest.takeStatusLine (req : HiwRequest) (m : Buf) (line : HiwString) :
    Bool × HiwRequest :=
  match parseStatusLine m line with
  | none => (false, req)
  | some (method, uri) => (true, { req with method, uri })

/-- A part of a status line. -/
def IsToken (b : Bytes) : Prop := b ≠ [] ∧ ∀ c ∈ b, c ≠ 32 ∧ c ≠ 9 ∧ c ≠ CR

instance (b : Bytes) : Decidable (IsToken b) :=
  @instDecidableAnd _ _ _ (List.decidableBAll _ b)

/-- The first two parts of a line, and what stands behind the version. -/
def statusLine (method uri rest : Bytes) : Bytes :=
  method ++ 32 :: (uri ++ 32 :: (ascii "HTTP/1.1" ++ rest))

/-- A status line with its method and uri. -/
def IsStatusLine (l method uri : Bytes) : Prop :=
  (l = statusLine method uri [] ∨ l = statusLine method uri [CR]) ∧ IsToken method ∧ IsToken uri

/-- The line has three parts and the right version, but it is no status line. -/
def Lenient (l : Bytes) : Prop :=
  ∃ method uri rest, l = statusLine method uri rest ∧ 32 ∉ method ∧ 32 ∉ uri ∧
    rest.all isspace = true ∧ ¬ (IsToken method ∧ IsToken uri ∧ (rest = [] ∨ rest = [CR]))

variable {m : Buf} {line : HiwString} {req : HiwRequest} {l method uri rest a b : Bytes}

theorem IsToken.blank_not_mem (h : IsToken b) : 32 ∉ b := fun hmem => (h.2 32 hmem).1 rfl

/-- A token has no whitespace to be trimmed, as long as there is no line feed. -/
theorem IsToken.rdropWhile (h : IsToken b) (hLF : LF ∉ b) : b.rdropWhile isspace = b := by
  have hlast : isspace (b.getLast h.1) = false := by
    have hmem := List.getLast_mem h.1
    obtain ⟨hblank, htab, hcr⟩ := h.2 _ hmem
    have hlf : b.getLast h.1 ≠ LF := ne_of_mem_of_not_mem hmem hLF
    simp [isspace, hblank, htab, hcr, hlf]
  rw [List.rdropWhile_eq_self_iff]
  exact fun _ => by rw [hlast]; exact Bool.false_ne_true

/-- The first two blanks of a line separate its parts. -/
theorem fields_statusLine (hmethod : 32 ∉ method) (huri : 32 ∉ uri) (rest : Bytes) :
    fields 32 2 (statusLine method uri rest) = [method, uri, ascii "HTTP/1.1" ++ rest] := by
  rw [statusLine, fields_append hmethod, fields_append huri, fields]

theorem of_fields_eq {c : Bytes} (h : fields 32 2 l = [a, b, c]) :
    l = a ++ 32 :: (b ++ 32 :: c) ∧ 32 ∉ a ∧ 32 ∉ b := by
  have hjoin := intercalate_fields (d := 32) 2 l
  have hinner : ∀ f ∈ [a, b], 32 ∉ f := by
    intro f hf
    refine not_mem_of_mem_dropLast_fields (k := 2) (l := l) ?_
    rw [h]
    exact hf
  rw [h] at hjoin
  refine ⟨?_, hinner a (by simp), hinner b (by simp)⟩
  rw [← hjoin]
  simp [List.intercalate_cons_cons]

theorem rdropWhile_version {v : Bytes} :
    v.rdropWhile isspace = ascii "HTTP/1.1" ↔
      ∃ rest, v = ascii "HTTP/1.1" ++ rest ∧ rest.all isspace = true := by
  constructor
  · intro h
    refine ⟨v.rtakeWhile isspace, ?_, ?_⟩
    · rw [← h, List.rdropWhile_append_rtakeWhile]
    · exact List.all_eq_true.2 fun c hc => List.mem_rtakeWhile_imp hc
  · rintro ⟨rest, rfl, hall⟩
    rw [rdropWhile_append_of_pos (List.all_eq_true.1 hall)]
    decide

theorem statusFields_eq_some : statusFields l = some (a, b) ↔
    ∃ method uri rest, l = statusLine method uri rest ∧ 32 ∉ method ∧ 32 ∉ uri ∧
      rest.all isspace = true ∧ method.rdropWhile isspace = a ∧ uri.rdropWhile isspace = b := by
  constructor
  · intro h
    unfold statusFields at h
    split at h
    · rename_i method uri version hfields
      split_ifs at h with hversion
      obtain ⟨ha, hb⟩ := Prod.mk.inj (Option.some.inj h)
      obtain ⟨hl, hm, hu⟩ := of_fields_eq hfields
      obtain ⟨rest, rfl, hrest⟩ := rdropWhile_version.1 hversion
      exact ⟨method, uri, rest, hl, hm, hu, hrest, ha, hb⟩
    · cases h
  · rintro ⟨method, uri, rest, rfl, hm, hu, hrest, rfl, rfl⟩
    rw [statusFields, fields_statusLine hm hu]
    simp only
    rw [if_pos (rdropWhile_version.2 ⟨rest, rfl, hrest⟩)]

namespace HiwRequest

/-- What the parser is to do: accept the status lines, take method and uri from them, and leave
these alone where it refuses. -/
structure Parses (m : Buf) (line : HiwString) (req : HiwRequest) : Prop where
  accepts : (req.takeStatusLine m line).1 = true ↔
    ∃ method uri, IsStatusLine (line.reads m) method uri
  parts : ∀ method uri, IsStatusLine (line.reads m) method uri →
    (req.takeStatusLine m line).2.method.reads m = method ∧
      (req.takeStatusLine m line).2.uri.reads m = uri
  refuses : (req.takeStatusLine m line).1 = false →
    (req.takeStatusLine m line).2.method = req.method ∧
      (req.takeStatusLine m line).2.uri = req.uri

theorem takeStatusLine_of_none (h : statusFields (line.reads m) = none) :
    req.takeStatusLine m line = (false, req) := by
  rw [← map_reads_parseStatusLine, Option.map_eq_none_iff] at h
  rw [takeStatusLine, h]

theorem takeStatusLine_of_some (h : statusFields (line.reads m) = some (a, b)) :
    (req.takeStatusLine m line).1 = true ∧
      (req.takeStatusLine m line).2.method.reads m = a ∧
      (req.takeStatusLine m line).2.uri.reads m = b := by
  rw [← map_reads_parseStatusLine, Option.map_eq_some_iff] at h
  obtain ⟨⟨v, w⟩, hp, heq⟩ := h
  rw [takeStatusLine, hp]
  exact ⟨rfl, congrArg Prod.fst heq, congrArg Prod.snd heq⟩

theorem fst_takeStatusLine :
    (req.takeStatusLine m line).1 = (statusFields (line.reads m)).isSome := by
  cases h : statusFields (line.reads m) with
  | none => rw [takeStatusLine_of_none h]; rfl
  | some p => rw [(takeStatusLine_of_some h).1]; rfl

end HiwRequest

theorem statusFields_of_isStatusLine (h : IsStatusLine l method uri) (hLF : LF ∉ l) :
    statusFields l = some (method, uri) := by
  obtain ⟨hl, hm, hu⟩ := h
  have hmem : ∀ rest, l = statusLine method uri rest → LF ∉ method ∧ LF ∉ uri := by
    rintro rest rfl
    constructor
    · exact fun hin => hLF (by simp [statusLine, hin])
    · exact fun hin => hLF (by simp [statusLine, hin])
  rw [statusFields_eq_some]
  rcases hl with hl | hl
  · obtain ⟨hm', hu'⟩ := hmem _ hl
    exact ⟨method, uri, [], hl, hm.blank_not_mem, hu.blank_not_mem, rfl, hm.rdropWhile hm',
      hu.rdropWhile hu'⟩
  · obtain ⟨hm', hu'⟩ := hmem _ hl
    exact ⟨method, uri, [CR], hl, hm.blank_not_mem, hu.blank_not_mem, rfl, hm.rdropWhile hm',
      hu.rdropWhile hu'⟩

theorem Lenient.isSome_statusFields (h : Lenient l) : (statusFields l).isSome = true := by
  obtain ⟨method, uri, rest, hl, hm, hu, hrest, -⟩ := h
  have hsome : statusFields l = some (method.rdropWhile isspace, uri.rdropWhile isspace) :=
    statusFields_eq_some.2 ⟨method, uri, rest, hl, hm, hu, hrest, rfl, rfl⟩
  rw [hsome]
  rfl

/-- The parts of a line are determined, so a lenient line is no status line. -/
theorem Lenient.not_isStatusLine (h : Lenient l) : ¬ ∃ method uri, IsStatusLine l method uri := by
  obtain ⟨method, uri, rest, rfl, hm, hu, -, hno⟩ := h
  rintro ⟨method', uri', hl, hm', hu'⟩
  refine hno ?_
  have hparts : ∀ rest', statusLine method uri rest = statusLine method' uri' rest' →
      method = method' ∧ uri = uri' ∧ rest = rest' := by
    intro rest' heq
    have hfields := congrArg (fields 32 2) heq
    rw [fields_statusLine hm hu, fields_statusLine hm'.blank_not_mem hu'.blank_not_mem] at hfields
    simpa using hfields
  rcases hl with hl | hl
  · obtain ⟨rfl, rfl, rfl⟩ := hparts _ hl
    exact ⟨hm', hu', .inl rfl⟩
  · obtain ⟨rfl, rfl, rfl⟩ := hparts _ hl
    exact ⟨hm', hu', .inr rfl⟩

theorem lenient_or_isStatusLine (h : statusFields l = some (a, b)) :
    Lenient l ∨ ∃ method uri, IsStatusLine l method uri := by
  obtain ⟨method, uri, rest, hl, hm, hu, hrest, -, -⟩ := statusFields_eq_some.1 h
  by_cases hok : IsToken method ∧ IsToken uri ∧ (rest = [] ∨ rest = [CR])
  · obtain ⟨hm', hu', rfl | rfl⟩ := hok
    · exact .inr ⟨method, uri, .inl hl, hm', hu'⟩
    · exact .inr ⟨method, uri, .inr hl, hm', hu'⟩
  · exact .inl ⟨method, uri, rest, hl, hm, hu, hrest, hok⟩

namespace HiwRequest

/-- **When the parser decides by the grammar.**  Exactly on the lines that are not lenient. -/
theorem parses_iff (m : Buf) (line : HiwString) (req : HiwRequest) (hLF : LF ∉ line.reads m) :
    Parses m line req ↔ ¬ Lenient (line.reads m) := by
  constructor
  · intro h hlen
    refine hlen.not_isStatusLine (h.accepts.1 ?_)
    rw [fst_takeStatusLine, hlen.isSome_statusFields]
  · intro hno
    refine ⟨?_, fun method uri h => ?_, fun h => ?_⟩
    · rw [fst_takeStatusLine, Option.isSome_iff_exists]
      constructor
      · rintro ⟨⟨a, b⟩, h⟩
        exact (lenient_or_isStatusLine h).resolve_left hno
      · rintro ⟨method, uri, h⟩
        exact ⟨_, statusFields_of_isStatusLine h hLF⟩
    · exact (takeStatusLine_of_some (statusFields_of_isStatusLine h hLF)).2
    · rw [fst_takeStatusLine, Option.isSome_eq_false_iff, Option.isNone_iff_eq_none] at h
      rw [takeStatusLine_of_none h]
      exact ⟨rfl, rfl⟩

/-- A request for `/`. -/
theorem parses_get : Parses (Buf.write (fun _ => 0) 0 (ascii "GET / HTTP/1.1\r\n")) ⟨0, 15⟩
    (.init .default fun _ => 0) := by
  refine (parses_iff _ _ _ (by decide)).2 fun hlen => hlen.not_isStatusLine ?_
  exact ⟨[71, 69, 84], [47], .inr (by decide), by decide, by decide⟩

/-- A line that begins with the blank, so that the method is empty. -/
theorem not_parses : ¬ ∀ (m : Buf) (line : HiwString) (req : HiwRequest), LF ∉ line.reads m →
    Parses m line req := by
  intro hall
  have hparses := hall (Buf.write (fun _ => 0) 0 (ascii " / HTTP/1.1\r\n")) ⟨0, 12⟩
    (.init .default fun _ => 0) (by decide)
  have hlen : Lenient (ascii " / HTTP/1.1\r") :=
    ⟨[], ascii "/", [CR], by decide, by decide, by decide, by decide, fun h => h.1.1 rfl⟩
  exact hlen.not_isStatusLine (hparses.accepts.1 (by decide))

end HiwRequest

end Highway
