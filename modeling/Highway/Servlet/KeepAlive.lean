import Highway.Servlet.Loop

/-!
# Several requests on one connection

A client sends well-formed requests, and what the server receives at a time is a group of whole
requests.  The parser takes the whole group into the buffer of the request, and the loop answers
the first request of it; `hiw_internal_request_reset` then forgets what else is in the buffer.
So the servlet is invoked for the first request of every group
(`ChainState.exists_firsts`), and for all of them exactly when no two requests share a group
(`ChainState.invoked_iff`).
-/

namespace Highway

open Lib

/-- The servlet reads the whole body of every request whose body has been received. -/
def ReadsBody (cfg : Config) (servlet : HiwRequest → Servlet) : Prop :=
  ∀ (req req' : HiwRequest) (r r' : HiwResponse), req.Ahead →
    req.contentLengthRemaining = req.contentLength →
    (servlet req).run cfg req r = some (req', r') → req'.contentLengthRemaining ≤ 0

namespace ChainState

/-- The response to the request that is read from here succeeds: filters and servlet return, the
head is sent, all of the body announced was sent, and the connection is left as the request has
it. -/
def Responds (cfg : Config) (servlet : HiwRequest → Servlet) (s : ChainState) : Prop :=
  (s.reader cfg).phase = .returned true → ∃ req r r',
    s.served cfg servlet = some (req, r) ∧ r.flushHeaders cfg = some (true, r') ∧
      r'.contentBytesLeft ≤ 0 ∧ r'.connectionClose = (s.reader cfg).req.connectionClose

/-- The servlet was invoked with the request's own method, uri and headers, and what was dropped
behind it is at most a part of its own body. -/
def Own (i : Invocation) (m : Message) : Prop :=
  i.method = m.method ∧ i.uri = m.uri ∧ i.headers = m.headers ∧ i.dropped <:+ m.body

/-- The servlet was invoked once for every request, in order. -/
def InvokedFor (is : List Invocation) (ms : List Message) : Prop := List.Forall₂ Own is ms

/-- The servlet was invoked for the first request of the group. -/
def First (i : Invocation) (g : List Message) : Prop :=
  ∃ m ms, g = m :: ms ∧ i.method = m.method ∧ i.uri = m.uri ∧ i.headers = m.headers ∧
    i.dropped <:+ m.body ++ ms.flatMap Message.bytes

/-- The bytes of a group of requests. -/
def groupBytes (g : List Message) : Bytes := g.flatMap Message.bytes

/-- A group of whole requests that one receive can bring. -/
structure Group (cfg : Config) (g : List Message) : Prop where
  nonempty : g ≠ []
  size : (groupBytes g).length < cfg.maxHeaderSize
  count : ∀ m ∈ g, m.fields.length ≤ cfg.maxHeadersCount

/-- The object of the request is set up for the buffer of the build. -/
def Ready (cfg : Config) (s : ChainState) : Prop :=
  s.request.memory.stop = cfg.maxHeaderSize ∧ s.request.memory.resizeBytes = -1

variable {cfg : Config} {servlet : HiwRequest → Servlet} {s : ChainState} {g : List Message}
  {groups : List (List Message)}

theorem fresh_of_ready (h : s.Ready cfg) : s.request.reset.Fresh cfg :=
  HiwRequest.fresh_reset h.1 h.2

theorem recv_group {client : HiwClient} {bs : Bytes} {es : List RecvEvent} {n : ℕ}
    (hin : client.incoming = .data bs :: es) (hle : bs.length ≤ n) (hn : n ≠ 0) :
    client.recv n = (some bs, { client with incoming := es }) := by
  rw [HiwClient.recv, hin, HiwClient.socketRecv_of_le (Nat.pos_of_ne_zero hn) hle]

theorem Group.length_body {m : Message} {ms : List Message} (hg : Group cfg (m :: ms)) :
    m.body.length < 2 ^ 31 := by
  have hsize := hg.size
  have hlimit := cfg.maxHeaderSize_lt
  have hbytes : groupBytes (m :: ms) = m.bytes ++ groupBytes ms := rfl
  rw [hbytes, Message.bytes] at hsize
  simp only [List.length_append] at hsize
  omega

/-- What the parser makes of a group: the head of the first request, with everything behind it in
the read-ahead buffer. -/
theorem reader_group (hs : s.Ready cfg) {m : Message} {ms : List Message} {es : List RecvEvent}
    (hg : Group cfg (m :: ms)) (hin : s.client.incoming = .data (groupBytes (m :: ms)) :: es) :
    (s.reader cfg).phase = .returned true ∧
      (s.reader cfg).client.incoming = es ∧
      (s.reader cfg).req.head = m.head ∧
      (s.reader cfg).req.readAheadBytes = m.body ++ groupBytes ms ∧
      (s.reader cfg).req.Ahead ∧
      (s.reader cfg).req.contentLengthRemaining = (s.reader cfg).req.contentLength ∧
      (s.reader cfg).req.memory = ⟨cfg.maxHeaderSize, cfg.maxHeaderSize, -1⟩ := by
  have hf := fresh_of_ready hs
  have hsize := hg.size
  have hbody := hg.length_body
  have hstop : headScan cfg (groupBytes (m :: ms)) =
      .stop (.accepted m.head []) (m.body ++ groupBytes ms) :=
    m.headScan_bytes hbody (hg.count m (by simp)) (groupBytes ms)
  have hrecv := recv_group (n := cfg.maxHeaderSize) hin (by omega) (by omega)
  obtain ⟨hclient, hread, -⟩ := HiwRequest.result_readHeaders hf hrecv hsize hstop
  obtain ⟨hp, hhead, hback, hlen, -⟩ := HiwRequest.readHeaders_of_headScan hf hrecv hsize hstop
  have hv := HiwRequest.valid_readHeaders hf s.client
  have hrem : (s.reader cfg).req.contentLengthRemaining = (s.reader cfg).req.contentLength := by
    rcases hv.remaining hp with h | ⟨-, h⟩
    · exact h
    · omega
  refine ⟨hp, ?_, hhead, hback, ⟨(hv.accepted hp).2.1, ?_⟩, hrem,
    HiwRequest.memory_readHeaders hf s.client⟩
  · show (s.request.reset.readHeaders cfg s.client).client.incoming = es
    rw [hclient]
  · -- the body stands in the read-ahead buffer, so what is announced is there
    have hcl : (s.reader cfg).req.contentLength = lastLength m.headers := by
      have hhead' : (s.reader cfg).req.head = .ofHeaders m.method m.uri m.headers :=
        hhead.trans (m.head_eq hbody)
      exact congrArg Head.contentLength hhead'
    have hcases := m.lastLength_headers
    have hlen' : (s.reader cfg).req.readAheadLength = (m.body ++ groupBytes ms).length := hlen
    rw [hrem, hcl, hlen', List.length_append]
    omega

/-- **One iteration.**  The servlet is invoked for the first request of the group, and the loop
goes on with what the socket has behind the group. -/
theorem iterate_group (hs : s.Ready cfg) {es : List RecvEvent}
    (hg : Group cfg g) (hin : s.client.incoming = .data (groupBytes g) :: es)
    (hread : ReadsBody cfg servlet) (hresp : Responds cfg servlet s) :
    (s.iterate cfg servlet).Ready cfg ∧ (s.iterate cfg servlet).phase = .retry ∧
      (s.iterate cfg servlet).client.incoming = es ∧
      ∃ i, (s.iterate cfg servlet).invoked = s.invoked ++ [i] ∧ First i g := by
  obtain ⟨m, ms, rfl⟩ := List.exists_cons_of_ne_nil hg.nonempty
  obtain ⟨hphase, hclient, hhead, hback, hahead, hrem, hmem⟩ := reader_group hs hg hin
  obtain ⟨req, r, r', hserved, hflush, hleft, hclose⟩ := hresp hphase
  have hbase : (s.response cfg).Base := HiwResponse.base_start _ _ _
  obtain ⟨hbase', hin', hsuffix, hmem'⟩ := Servlet.run_ahead hahead hbase hserved
  -- the parser has seen the header that keeps the connection
  have hkeep : (s.reader cfg).req.connectionClose = false := by
    rw [← m.lastClose_headers]
    exact congrArg Head.connectionClose (hhead.trans (m.head_eq hg.length_body))
  have hdone : req.contentLengthRemaining ≤ 0 := hread _ _ _ _ hahead hrem hserved
  -- the checks at the end of the loop all pass
  have hfin : r.finish cfg req.contentLengthRemaining = some (true, r') := by
    rw [HiwResponse.finish, if_neg (not_lt.2 hdone), hflush]
    simp only
    rw [if_neg (not_lt.2 hleft), hclose, hkeep]
    rfl
  have hin'' : r'.client.incoming = es := by
    obtain ⟨hpath, -⟩ := HiwResponse.does_flushHeaders (P := fun _ => True) hbase' (.inl trivial)
      trivial _ _ hflush
    rw [HiwResponse.incoming_of_changes hpath, hin']
    exact hclient
  have hiter : s.iterate cfg servlet =
      { s with
        request := req
        invoked := s.invoked ++ [s.invocation cfg req]
        memoryFixed := r'.memoryFixed
        client := r'.client
        phase := .retry } := by
    simp only [iterate, hphase, hserved, hfin, if_true]
  rw [hiter]
  refine ⟨?_, rfl, hin'', s.invocation cfg req, rfl, m, ms, rfl, ?_⟩
  · show req.memory.stop = _ ∧ req.memory.resizeBytes = _
    rw [hmem', hmem]
    exact ⟨rfl, rfl⟩
  · show (s.reader cfg).req.head.method = _ ∧ (s.reader cfg).req.head.uri = _ ∧
      (s.reader cfg).req.head.headers = _ ∧ req.readAheadBytes <:+ _
    rw [hhead, m.head_eq hg.length_body]
    exact ⟨rfl, rfl, rfl, hback ▸ hsuffix⟩

theorem reader_nil (hs : s.Ready cfg) (hin : s.client.incoming = []) :
    (s.reader cfg).phase = .returned false := by
  have hrecv : ∀ n, s.client.recv n = (some [], s.client) := by
    intro n
    rw [HiwClient.recv, hin, HiwClient.socketRecv]
    show (some [], { s.client with incoming := [] }) = _
    rw [← hin]
  have hstart := HiwReader.start_eq (fresh_of_ready hs) s.client
  have hstep : ((HiwReader.start cfg s.request.reset s.client).step cfg).phase =
      .returned false := by
    rw [hstart]
    simp [HiwReader.step, HiwReader.stepStatusLine, HiwReader.recvAt, HiwReader.ret, hrecv]
  have hfinal : (HiwReader.start cfg s.request.reset s.client).final = false := by
    rw [hstart]
    rfl
  show (runFuel (HiwReader.step cfg) HiwReader.final (2 * cfg.maxHeaderSize + 1 + 1)
    (HiwReader.start cfg s.request.reset s.client)).phase = _
  rw [runFuel, if_neg (by simp [hfinal]), runFuel_of_final (by simp [HiwReader.final, hstep]),
    hstep]

theorem iterate_nil {servlet : HiwRequest → Servlet} (hs : s.Ready cfg)
    (hin : s.client.incoming = []) :
    (s.iterate cfg servlet).phase = .closed ∧ (s.iterate cfg servlet).invoked = s.invoked := by
  have hphase := reader_nil hs hin
  have hiter : s.iterate cfg servlet =
      { s with
        request := (s.reader cfg).req
        client := (s.reader cfg).client
        phase := .closed } := by
    simp only [iterate, hphase]
  rw [hiter]
  exact ⟨rfl, rfl⟩

/-- **The run of the loop.**  It comes to its end, and the servlet was invoked for the first
request of every group. -/
theorem exists_firsts (hs : s.Ready cfg) (hp : s.phase = .retry)
    (hg : ∀ g ∈ groups, Group cfg g)
    (hin : s.client.incoming = groups.map fun g => .data (groupBytes g))
    (hread : ReadsBody cfg servlet)
    (hresp : ∀ t, Visited (iterate cfg servlet) final s t → t.phase = .retry →
      Responds cfg servlet t) :
    ∃ t is, Visited (iterate cfg servlet) final s t ∧ t.phase = .closed ∧
      t.invoked = s.invoked ++ is ∧ List.Forall₂ First is groups := by
  have hfinal : ∀ t : ChainState, t.phase = .retry → t.final = false := by
    intro t ht
    simp [final, ht]
  induction groups generalizing s with
  -- the groups are used up, and the next receive ends the connection
  | nil =>
    obtain ⟨hclosed, hinvoked⟩ := iterate_nil hs hin
    exact ⟨s.iterate cfg servlet, [], .tail .refl (hfinal s hp), hclosed, by simpa using hinvoked,
      .nil⟩
  | cons g groups ih =>
    rw [List.map_cons] at hin
    obtain ⟨hs', hp', hin', i, hinvoked, hfirst⟩ :=
      iterate_group hs (hg g (by simp)) hin hread (hresp s .refl hp)
    obtain ⟨t, is, hv, ht, his, hall⟩ := ih hs' hp'
      (fun g' hg' => hg g' (List.mem_cons_of_mem _ hg')) hin'
      (fun u hu => hresp u (hu.head (hfinal s hp)))
    refine ⟨t, i :: is, hv.head (hfinal s hp), ht, ?_, .cons hfirst hall⟩
    rw [his, hinvoked, List.append_assoc, List.singleton_append]

/-- Groups have at least as many requests as there are groups, and no more only if each has one
request. -/
theorem length_groups (hg : ∀ g ∈ groups, g ≠ []) :
    groups.length ≤ groups.flatten.length ∧
      (groups.length = groups.flatten.length → ∀ g ∈ groups, g.length = 1) := by
  induction groups with
  | nil => simp
  | cons g groups ih =>
    obtain ⟨hle, hone⟩ := ih fun g' hg' => hg g' (List.mem_cons_of_mem _ hg')
    have hpos := List.length_pos_iff.2 (hg g (by simp))
    simp only [List.flatten_cons, List.length_cons, List.length_append]
    refine ⟨by omega, fun heq => ?_⟩
    intro g' hg'
    rcases List.mem_cons.1 hg' with rfl | hg'
    · omega
    · exact hone (by omega) g' hg'

theorem invokedFor_of_first {is : List Invocation} (h : List.Forall₂ First is groups)
    (hone : ∀ g ∈ groups, g.length = 1) : InvokedFor is groups.flatten := by
  induction h with
  | nil => exact .nil
  | cons hi _ ih =>
    obtain ⟨m, ms, rfl, hmethod, huri, hheaders, hdropped⟩ := hi
    obtain rfl : ms = [] := by simpa using hone (m :: ms) (by simp)
    refine .cons ⟨hmethod, huri, hheaders, ?_⟩ (ih fun g hg => hone g (List.mem_cons_of_mem _ hg))
    simpa using hdropped

/-- **The servlet is invoked for every request exactly when each receive brings one request.** -/
theorem invoked_iff {request : HiwRequest} {m : Buf} {client : HiwClient}
    (hstop : request.memory.stop = cfg.maxHeaderSize) (hresize : request.memory.resizeBytes = -1)
    (hg : ∀ g ∈ groups, Group cfg g)
    (hin : client.incoming = groups.map fun g => .data (groupBytes g))
    (hread : ReadsBody cfg servlet)
    (hresp : ∀ t, Visited (iterate cfg servlet) final (start request m client) t →
      t.phase = .retry → Responds cfg servlet t) :
    ∃ t, Visited (iterate cfg servlet) final (start request m client) t ∧ t.phase = .closed ∧
      (InvokedFor t.invoked groups.flatten ↔ ∀ g ∈ groups, g.length = 1) := by
  obtain ⟨t, is, hv, hclosed, his, hall⟩ :=
    exists_firsts (s := start request m client) ⟨hstop, hresize⟩ rfl hg hin hread hresp
  obtain rfl : t.invoked = is := his
  refine ⟨t, hv, hclosed, ?_, invokedFor_of_first hall⟩
  intro hinv
  refine (length_groups fun g hg' => (hg g hg').nonempty).2 ?_
  rw [← hall.length_eq, List.Forall₂.length_eq hinv]

/-! ### Two requests, apart and together -/

/-- The test for `Responds`. -/
def testResponds (cfg : Config) (servlet : HiwRequest → Servlet) (s : ChainState) : Bool :=
  decide ((s.reader cfg).phase ≠ .returned true) ||
    match s.served cfg servlet with
    | none => false
    | some (_, r) =>
      match r.flushHeaders cfg with
      | some (true, r') => decide (r'.contentBytesLeft ≤ 0 ∧
          r'.connectionClose = (s.reader cfg).req.connectionClose)
      | _ => false

theorem responds_of_test (h : s.testResponds cfg servlet = true) : Responds cfg servlet s := by
  intro hp
  unfold testResponds at h
  rw [decide_eq_false (not_not.2 hp), Bool.false_or] at h
  split at h
  · cases h
  · rename_i req r hserved
    split at h
    · rename_i r' hflush
      obtain ⟨hleft, hclose⟩ := of_decide_eq_true h
      exact ⟨req, r, r', hserved, hflush, hleft, hclose⟩
    · cases h

/-- A servlet function that reads the body in one call and answers without one. -/
def readAll (req : HiwRequest) : Servlet :=
  .recv (List.replicate req.contentLengthRemaining.toNat 0) req.contentLengthRemaining fun _ _ =>
    .respond (.setStatusCode 200) fun _ => .done

theorem readsBody_readAll (cfg : Config) : ReadsBody cfg readAll := by
  intro req req' r r' hahead hcl hrun
  have hcall : ∀ dest,
      (req.recv r.client dest req.contentLengthRemaining).2.2.1.contentLengthRemaining ≤ 0 := by
    intro dest
    by_cases hrem : req.contentLengthRemaining ≤ 0
    · rw [HiwRequest.recv_of_le (.inr (.inr hrem))]
      exact hrem
    · have hpos : 0 < req.contentLengthRemaining := not_le.1 hrem
      -- the body is in the buffer, so one call is given all of it
      have hasked : req.asked req.contentLengthRemaining = req.contentLengthRemaining :=
        min_self _
      rw [HiwRequest.recv_eq hpos (by omega) hpos hahead.nonneg, hasked, if_pos hahead.le]
      show req.contentLengthRemaining - req.contentLengthRemaining ≤ 0
      omega
  have hreq : req' = (req.recv r.client (List.replicate req.contentLengthRemaining.toNat 0)
      req.contentLengthRemaining).2.2.1 := by
    simp only [readAll, Servlet.run] at hrun
    split at hrun
    · cases hrun
    · cases hrun
      rfl
  rw [hreq]
  exact hcall _

/-- The header that keeps a connection. -/
def keepAliveField : Field where
  name := ascii "Connection"
  value := ascii "keep-alive"
  before := ascii " "
  behind := []
  name_visible := by decide +kernel
  name_colon := by decide +kernel
  value_line := by decide +kernel
  value_head := by decide +kernel
  value_last := by decide +kernel
  blanks := by decide +kernel

/-- The header of a body of two bytes. -/
def lengthField : Field where
  name := ascii "Content-Length"
  value := ascii "2"
  before := ascii " "
  behind := []
  name_visible := by decide +kernel
  name_colon := by decide +kernel
  value_line := by decide +kernel
  value_head := by decide +kernel
  value_last := by decide +kernel
  blanks := by decide +kernel

/-- A request without a body. -/
def getMessage : Message where
  method := ascii "GET"
  uri := ascii "/a"
  fields := [keepAliveField]
  body := []
  method_visible := by decide +kernel
  uri_visible := by decide +kernel
  keepAlive := by decide +kernel
  lengths := by decide +kernel
  framed := by decide +kernel

/-- A request with a body of two bytes. -/
def putMessage : Message where
  method := ascii "PUT"
  uri := ascii "/b"
  fields := [keepAliveField, lengthField]
  body := ascii "hi"
  method_visible := by decide +kernel
  uri_visible := by decide +kernel
  keepAlive := by decide +kernel
  lengths := by decide +kernel
  framed := by decide +kernel

/-- A client that sends the groups and takes all responses. -/
def sendingGroups (groups : List (List Message)) : HiwClient where
  incoming := groups.map fun g => .data (groupBytes g)
  outgoing := [.accept 200, .accept 200]

/-- The connection of a client that sends the groups. -/
def connection (groups : List (List Message)) : ChainState :=
  start (.init .default fun _ => 0) (fun _ => 0) (sendingGroups groups)

theorem responds_of_testFuel {n : ℕ} (h : testFuel (iterate .default readAll) final
      (testResponds .default readAll) n (connection groups) = true) {t : ChainState}
    (hv : Visited (iterate .default readAll) final (connection groups) t)
    (_hp : t.phase = .retry) : Responds .default readAll t :=
  responds_of_test (of_testFuel h hv)

theorem invoked_iff_apart : ∃ t, Visited (iterate .default readAll) final
      (connection [[getMessage], [putMessage]]) t ∧ t.phase = .closed ∧
      InvokedFor t.invoked [getMessage, putMessage] := by
  have hg : ∀ g ∈ [[getMessage], [putMessage]], Group .default g := by
    intro g hg
    have hcases : g = [getMessage] ∨ g = [putMessage] := by simpa using hg
    rcases hcases with rfl | rfl <;> exact ⟨by simp, by decide +kernel, by decide +kernel⟩
  have hstop : (HiwRequest.init .default fun _ => 0).memory.stop =
    Config.default.maxHeaderSize := rfl
  have htest : testFuel (iterate .default readAll) final (testResponds .default readAll) 4
      (connection [[getMessage], [putMessage]]) = true := by decide +kernel
  have hin : (sendingGroups [[getMessage], [putMessage]]).incoming =
    [[getMessage], [putMessage]].map fun g => .data (groupBytes g) := rfl
  obtain ⟨t, hv, hclosed, hiff⟩ := invoked_iff hstop rfl hg hin (readsBody_readAll _)
    (fun t hv hp => responds_of_testFuel htest hv hp)
  exact ⟨t, hv, hclosed, hiff.2 (by simp)⟩

/-- Two requests in one receive: the second one is dropped. -/
theorem not_invokedFor : ¬∀ (cfg : Config) (servlet : HiwRequest → Servlet)
    (groups : List (List Message)) (request : HiwRequest) (m : Buf) (client : HiwClient),
    request.memory.stop = cfg.maxHeaderSize → request.memory.resizeBytes = -1 →
    (∀ g ∈ groups, Group cfg g) →
    (client.incoming = groups.map fun g => .data (groupBytes g)) → ReadsBody cfg servlet →
    (∀ t, Visited (iterate cfg servlet) final (start request m client) t →
      t.phase = .retry → Responds cfg servlet t) →
    ∃ t, Visited (iterate cfg servlet) final (start request m client) t ∧ t.phase = .closed ∧
      InvokedFor t.invoked groups.flatten := by
  intro hall
  have hg : ∀ g ∈ [[getMessage, putMessage]], Group .default g := by
    intro g hg
    obtain rfl : g = [getMessage, putMessage] := by simpa using hg
    exact ⟨by simp, by decide +kernel, by decide +kernel⟩
  have htest : testFuel (iterate .default readAll) final (testResponds .default readAll) 3
      (connection [[getMessage, putMessage]]) = true := by decide +kernel
  have hresp := fun t hv hp => responds_of_testFuel (t := t) htest hv hp
  obtain ⟨t, hv, hclosed, hinv⟩ := hall .default readAll [[getMessage, putMessage]]
    (.init .default fun _ => 0) (fun _ => 0) (sendingGroups [[getMessage, putMessage]]) rfl rfl hg
    rfl (readsBody_readAll _) hresp
  obtain ⟨t', is, hv', hclosed', his, hfirst⟩ := exists_firsts (s := connection _) ⟨rfl, rfl⟩ rfl
    hg rfl (readsBody_readAll _) hresp
  -- the run has one end, and it has one invocation for two requests
  obtain rfl : t = t' := hv.eq_of_final hv' (by simp [final, hclosed]) (by simp [final, hclosed'])
  have hlen := List.Forall₂.length_eq hinv
  rw [his] at hlen
  have hlen' := hfirst.length_eq
  simp [connection, start] at hlen hlen'
  omega

end ChainState

end Highway
