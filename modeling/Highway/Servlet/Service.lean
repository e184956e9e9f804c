import Highway.Servlet.Accept
import Highway.Servlet.Reply

/-!
# What a client of the accept loop gets

A thread serves its clients with the same request object and the same block for responses.  For a
servlet function that answers by the uri, and a client that sends its requests one by one and takes
what it is sent, none of this shows (`AcceptLoop.wire_of_client`): whatever clients came before, and
whenever the server is stopped, the client gets the replies to its own requests, in order.
-/

namespace Highway

open Lib

variable {cfg : Config} {answer : Bytes → Reply} {size : ℕ}

theorem Servlet.exists_of_run_respond {op : HiwResponse.Op} {next : Bool → Servlet}
    {req req' : HiwRequest} {r r' : HiwResponse}
    (h : (Servlet.respond op next).run cfg req r = some (req', r')) :
    ∃ ok r₁, (next ok).run cfg req r₁ = some (req', r') := by
  rw [Servlet.run] at h
  split at h
  · cases h
  · exact ⟨_, _, h⟩

theorem Reply.req_of_run {a : Reply} {req req' : HiwRequest} {r r' : HiwResponse}
    (h : a.program.run cfg req r = some (req', r')) : req' = req := by
  obtain ⟨_, _, h⟩ := Servlet.exists_of_run_respond h
  obtain ⟨_, _, h⟩ := Servlet.exists_of_run_respond h
  obtain ⟨_, _, h⟩ := Servlet.exists_of_run_respond h
  obtain ⟨_, _, h⟩ := Servlet.exists_of_run_respond h
  exact (Prod.mk.inj (Option.some.inj h)).1.symm

namespace ChainState

variable {s : ChainState}

theorem Ready.iterate (hs : s.Ready cfg) : (s.iterate cfg (Reply.serve answer)).Ready cfg := by
  have hmem : (s.reader cfg).req.memory = _ :=
    HiwRequest.memory_readHeaders (fresh_of_ready hs) s.client
  have hreader : (s.reader cfg).req.memory.stop = cfg.maxHeaderSize ∧
      (s.reader cfg).req.memory.resizeBytes = -1 := by
    rw [hmem]
    exact ⟨rfl, rfl⟩
  unfold ChainState.iterate
  split
  · split
    · exact hs
    · rename_i req r hserved
      obtain rfl := Reply.req_of_run hserved
      split
      · exact hreader
      · exact hreader
  · exact hreader
  · exact hs

/-- After `k` turns of the loop the client has the replies to its first `k` requests. -/
structure Serves (cfg : Config) (answer : Bytes → Reply) (size : ℕ) (client : HiwClient)
    (ms : List Message) (k : ℕ) (s : ChainState) : Prop where
  ready : s.Ready cfg
  wire : s.client.wire =
    client.wire ++ (ms.take k).flatMap fun m => (answer m.uri).bytes cfg false
  /-- The turn behind the last request finds the end of the connection. -/
  phase : s.phase = if k ≤ ms.length then .retry else .closed
  incoming : k ≤ ms.length → s.client.incoming = (ms.drop k).map fun m => .data m.bytes
  takes : k ≤ ms.length → s.client.Takes (2 * (ms.length - k)) size

theorem Serves.start {req : HiwRequest} {memoryFixed : Buf} {client : HiwClient}
    {ms : List Message} (hreq : req.memory.stop = cfg.maxHeaderSize ∧ req.memory.resizeBytes = -1)
    (hin : client.incoming = ms.map fun m => .data m.bytes)
    (htakes : client.Takes (2 * ms.length) size) :
    Serves cfg answer size client ms 0 (.start req memoryFixed client) where
  ready := hreq
  wire := (List.append_nil _).symm
  phase := rfl
  incoming := fun _ => hin
  takes := fun _ => htakes

theorem Serves.iterate {client : HiwClient} {ms : List Message} {k : ℕ}
    (h : Serves cfg answer size client ms k s) (hretry : s.phase = .retry)
    (hm : ∀ m ∈ ms, Plain cfg m) (hsuits : ∀ m ∈ ms, Suits cfg (answer m.uri) size) :
    Serves cfg answer size client ms (k + 1) (s.iterate cfg (Reply.serve answer)) := by
  have hk : k ≤ ms.length := by
    by_contra hk
    have hphase := h.phase
    rw [if_neg hk, hretry] at hphase
    cases hphase
  have hin := h.incoming hk
  have htakes := h.takes hk
  rcases Nat.lt_or_eq_of_le hk with hlt | rfl
  -- there is another request
  · rw [List.drop_eq_getElem_cons hlt, List.map_cons] at hin
    have hmem := List.getElem_mem hlt
    have hcount : 2 * (ms.length - k) = 2 * (ms.length - (k + 1)) + 2 := by omega
    rw [hcount] at htakes
    obtain ⟨hs, hp, hin', hwire, htakes'⟩ :=
      iterate_reply h.ready (hm _ hmem) hin (hsuits _ hmem) htakes
    have hlt' : k + 1 ≤ ms.length := hlt
    refine ⟨hs, ?_, by rw [hp, if_pos hlt'], fun _ => hin', fun _ => htakes'⟩
    rw [hwire, h.wire, List.take_succ_eq_append_getElem hlt, List.flatMap_append,
      List.flatMap_singleton, List.append_assoc]
  -- there is none
  · rw [List.drop_length, List.map_nil] at hin
    have hphase := reader_nil h.ready hin
    have hclosed : (s.iterate cfg (Reply.serve answer)).phase = .closed :=
      (iterate_nil h.ready hin).1
    have hnot : ¬ ms.length + 1 ≤ ms.length := Nat.not_succ_le_self _
    refine ⟨h.ready.iterate, ?_, by rw [hclosed, if_neg hnot], fun hle => absurd hle hnot,
      fun hle => absurd hle hnot⟩
    have hwire := (HiwRequest.sent_readHeaders (fresh_of_ready h.ready) s.client).2
    have hsame : (s.iterate cfg (Reply.serve answer)).client = (s.reader cfg).client := by
      simp only [ChainState.iterate, hphase]
    rw [hsame, show (s.reader cfg).client.wire = s.client.wire from hwire, h.wire,
      List.take_length, List.take_of_length_le (Nat.le_succ _)]

end ChainState

namespace AcceptLoop

/-- The thread goes on with its client. -/
def Action.isIterate : Action → Bool
  | .iterate => true
  | _ => false

/-- The request objects of the thread are set up for the buffer. -/
structure Ready (cfg : Config) (s : AcceptLoop) : Prop where
  request : s.request.memory.stop = cfg.maxHeaderSize ∧ s.request.memory.resizeBytes = -1
  chain : ∀ socket chain, s.phase = .serving socket chain → chain.Ready cfg

variable {s s' : AcceptLoop} {a : Action} {client : HiwClient} {ms : List Message} {k : ℕ}
  {actions : List Action}

theorem Ready.step (h : s.Ready cfg) (hstep : step cfg (Reply.serve answer) s a = some s') :
    s'.Ready cfg := by
  obtain ⟨server, descriptors, request, memoryFixed, phase⟩ := s
  obtain ⟨hrequest, hchain⟩ := h
  cases a with
  | check =>
    cases phase <;> simp only [AcceptLoop.step, reduceCtorEq] at hstep
    obtain rfl := Option.some.inj hstep
    refine ⟨hrequest, fun socket chain hphase => ?_⟩
    simp only at hphase
    split_ifs at hphase
  | accept e client =>
    cases phase <;> simp only [AcceptLoop.step, reduceCtorEq] at hstep
    split at hstep
    · cases hstep
    · obtain rfl := Option.some.inj hstep
      exact ⟨hrequest, fun _ _ hphase => by cases hphase⟩
    · obtain rfl := Option.some.inj hstep
      exact ⟨hrequest, fun _ _ hphase => by cases hphase; exact hrequest⟩
  | iterate =>
    cases phase <;> simp only [AcceptLoop.step, reduceCtorEq] at hstep
    split_ifs at hstep
    obtain rfl := Option.some.inj hstep
    exact ⟨hrequest, fun _ _ hphase => by cases hphase; exact (hchain _ _ rfl).iterate⟩
  | delete =>
    cases phase <;> simp only [AcceptLoop.step, reduceCtorEq] at hstep
    split_ifs at hstep
    obtain rfl := Option.some.inj hstep
    exact ⟨hchain _ _ rfl, fun _ _ hphase => by cases hphase⟩
  | stop =>
    obtain rfl := Option.some.inj hstep
    exact ⟨hrequest, hchain⟩

/-- The client that the thread is with, if there is one, is served. -/
def Serving (cfg : Config) (answer : Bytes → Reply) (size : ℕ) (client : HiwClient)
    (ms : List Message) (k : ℕ) (s : AcceptLoop) : Prop :=
  ∀ socket chain, s.phase = .serving socket chain →
    ChainState.Serves cfg answer size client ms k chain

theorem Serving.run (h : Serving cfg answer size client ms k s)
    (hm : ∀ m ∈ ms, ChainState.Plain cfg m)
    (hsuits : ∀ m ∈ ms, ChainState.Suits cfg (answer m.uri) size)
    (hactions : ∀ a ∈ actions, a = .iterate ∨ a = .stop)
    (hrun : runLabels (step cfg (Reply.serve answer)) s actions = some s') :
    Serving cfg answer size client ms (k + actions.countP Action.isIterate) s' := by
  induction actions generalizing s k with
  | nil =>
    obtain rfl := Option.some.inj hrun
    exact h
  | cons a actions ih =>
    obtain ⟨ha, hrest⟩ := List.forall_mem_cons.1 hactions
    rw [runLabels_cons] at hrun
    obtain ⟨t, hstep, htail⟩ := Option.bind_eq_some_iff.1 hrun
    rcases ha with rfl | rfl
    · rw [List.countP_cons_of_pos (by rfl), Nat.add_comm _ 1, ← Nat.add_assoc]
      refine ih ?_ hrest htail
      obtain ⟨server, descriptors, request, memoryFixed, phase⟩ := s
      cases phase <;> simp only [AcceptLoop.step, reduceCtorEq] at hstep
      split_ifs at hstep with hretry
      obtain rfl := Option.some.inj hstep
      intro socket chain hphase
      cases hphase
      exact (h _ _ rfl).iterate hretry hm hsuits
    · rw [List.countP_cons_of_neg (by simp [Action.isIterate])]
      refine ih ?_ hrest htail
      obtain rfl := Option.some.inj hstep
      exact h

/-- **What a client gets.**  Whatever the thread has done before, a client that sends one request
with each receive has after `k` turns the replies to its first `k` requests and nothing else, and
the thread closes the connection behind the last one. -/
theorem wire_of_client {listening : ℕ} {m memoryFixed : Buf} {before after : List Action}
    {e : AcceptEvent} (hm : ∀ m ∈ ms, ChainState.Plain cfg m)
    (hin : client.incoming = ms.map fun m => .data m.bytes)
    (hsuits : ∀ m ∈ ms, ChainState.Suits cfg (answer m.uri) size)
    (htakes : client.Takes (2 * ms.length) size)
    (hafter : ∀ a ∈ after, a = .iterate ∨ a = .stop)
    (hrun : runLabels (step cfg (Reply.serve answer))
      (start listening (.init cfg m) memoryFixed) (before ++ .accept e client :: after) = some s)
    {socket : ℕ} {chain : ChainState} (hserving : s.phase = .serving socket chain) :
    chain.client.wire = client.wire ++ (ms.take (after.countP Action.isIterate)).flatMap
        (fun m => (answer m.uri).bytes cfg false) ∧
      chain.phase = if after.countP Action.isIterate ≤ ms.length then .retry else .closed := by
  rw [runLabels_append] at hrun
  obtain ⟨t, hbefore, hrun⟩ := Option.bind_eq_some_iff.1 hrun
  rw [runLabels_cons] at hrun
  obtain ⟨u, haccept, hrun⟩ := Option.bind_eq_some_iff.1 hrun
  have hready : t.Ready cfg := invariant_of_runLabels
    (fun _ _ _ _ h hstep => h.step hstep) ⟨⟨rfl, rfl⟩, fun _ _ h => by cases h⟩ hbefore
  have hserves : Serving cfg answer size client ms 0 u := by
    obtain ⟨server, descriptors, request, block, phase⟩ := t
    cases phase <;> simp only [AcceptLoop.step, reduceCtorEq] at haccept
    intro socket chain hphase
    split at haccept
    · cases haccept
    · obtain rfl := Option.some.inj haccept
      cases hphase
    · obtain rfl := Option.some.inj haccept
      cases hphase
      exact .start hready.request hin htakes
  have h := hserves.run hm hsuits hafter hrun socket chain hserving
  rw [Nat.zero_add] at h
  exact ⟨h.wire, h.phase⟩

/-- A client with `n` requests. -/
def getting (n : ℕ) : HiwClient where
  incoming := (List.replicate n ChainState.getMessage).map fun m => .data m.bytes
  outgoing := List.replicate (2 * n) (.accept 200)

/-- The reply to each of them. -/
def greeting : Reply := ⟨200, ascii "text/plain", ascii "Hello World!"⟩

/-- The first client of a thread. -/
def firstClient : List Action :=
  [.check, .accept (.accepts 4 true) (getting 1), .iterate, .iterate, .delete, .check]

/-- The second one has two requests, and the server is stopped between them. -/
theorem wire_of_secondClient : ∃ s chain,
    runLabels (step .default (Reply.serve fun _ => greeting))
      (start 3 (.init .default fun _ => 0) fun _ => 0)
      (firstClient ++ .accept (.accepts 5 true) (getting 2) :: [.iterate, .stop, .iterate]) =
        some s ∧
    s.phase = .serving 5 chain ∧
    chain.client.wire = greeting.bytes .default false ++ greeting.bytes .default false ∧
    chain.phase = .retry := by
  refine ⟨_, _, rfl, rfl, ?_⟩
  have h := @wire_of_client .default (fun _ => greeting) 200 _ (getting 2)
    [ChainState.getMessage, ChainState.getMessage] 3 (fun _ => 0) (fun _ => 0) firstClient
    [.iterate, .stop, .iterate] (.accepts 5 true)
    (by simpa using ⟨rfl, by decide +kernel, by decide⟩) rfl
    (by simpa using ⟨⟨by decide, by decide, by decide, by decide +kernel, by decide⟩,
      by decide +kernel, by decide +kernel⟩)
    ⟨by decide, by simp [getting]⟩ (by simp) rfl 5 _ rfl
  exact h

end AcceptLoop

end Highway
