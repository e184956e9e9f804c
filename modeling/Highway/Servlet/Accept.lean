import Highway.Server.Descriptor
import Highway.Servlet.Loop

/-!
# The accept loop

`hiw_servlet_start_filter_chain` as a whole: it accepts a client, serves it until the connection
ends (`ChainState`), deletes it and accepts the next one.  `AcceptLoop.step` is one step of the
thread, or `hiw_server_stop` called by another one.

Every socket that the loop has given back through `hiw_socket_close` is still open
(`AcceptLoop.card_opened`), so the sockets pile up, one for each client
(`AcceptLoop.givesBack_iff`).
-/

namespace Highway

open Lib

/-- Where the thread is. -/
inductive AcceptLoop.Phase where
  /-- At the condition of the loop. -/
  | checking
  /-- In front of `hiw_server_accept`. -/
  | accepting
  /-- With a client, whose socket is given. -/
  | serving (socket : ℕ) (chain : ChainState)
  /-- Returned. -/
  | returned

/-- `hiw_servlet_start_filter_chain` with the server and the descriptors of the process. -/
structure AcceptLoop where
  server : HiwServer
  descriptors : Descriptors
  request : HiwRequest
  /-- The block of the response. -/
  memoryFixed : Buf
  phase : AcceptLoop.Phase

namespace AcceptLoop

/-- What can happen next. -/
inductive Action where
  /-- The thread looks whether the server is running. -/
  | check
  /-- The thread calls `hiw_server_accept` ; a client that it gets behaves as given. -/
  | accept (e : AcceptEvent) (client : HiwClient)
  /-- The thread serves a request of the client. -/
  | iterate
  /-- The thread deletes the client. -/
  | delete
  /-- Another thread calls `hiw_server_stop`. -/
  | stop

/-- One step; `none` when it is not possible where the thread is. -/
def step (cfg : Config) (servlet : HiwRequest → Servlet) (s : AcceptLoop) :
    Action → Option AcceptLoop
  | .check =>
    match s.phase with
    | .checking => some { s with phase := if s.server.running then .accepting else .returned }
    | _ => none
  | .accept e client =>
    match s.phase with
    | .accepting =>
      match s.server.accept s.descriptors e with
      | none => none
      | some (none, descriptors) => some { s with descriptors, phase := .checking }
      | some (some socket, descriptors) =>
        some { s with
          descriptors
          phase := .serving socket (.start s.request s.memoryFixed client) }
    | _ => none
  | .iterate =>
    match s.phase with
    | .serving socket chain =>
      if chain.phase = .retry then
        some { s with phase := .serving socket (chain.iterate cfg servlet) }
      else none
    | _ => none
  | .delete =>
    match s.phase with
    | .serving socket chain =>
      if chain.phase = .closed then
        some { s with
          descriptors := s.descriptors.hiwClientDelete (some socket)
          request := chain.request
          memoryFixed := chain.memoryFixed
          phase := .checking }
      else none
    | _ => none
  | .stop =>
    let (server, descriptors) := s.server.stop s.descriptors
    some { s with server, descriptors }

/-- The loop of a server that listens at the given socket. -/
def start (listening : ℕ) (request : HiwRequest) (memoryFixed : Buf) : AcceptLoop where
  server := ⟨some listening, true⟩
  descriptors := ⟨{listening}, []⟩
  request := request
  memoryFixed := memoryFixed
  phase := .checking

/-- The sockets of clients that are accepted and not yet deleted. -/
def clients (s : AcceptLoop) : List ℕ :=
  match s.phase with
  | .serving socket _ => [socket]
  | _ => []

/-- The socket that a step is to give back: the one of a client that is deleted, or of one that
cannot be configured. -/
def handled (s : AcceptLoop) : Action → Option ℕ
  | .accept (.accepts socket false) _ =>
    match s.phase with
    | .accepting =>
      if s.server.running ∧ socket ∉ s.descriptors.opened then some socket else none
    | _ => none
  | .delete =>
    match s.phase with
    | .serving socket chain => if chain.phase = .closed then some socket else none
    | _ => none
  | _ => none

/-- At `hiw_server_accept`, there are at most the listening socket and the clients. -/
def Bounded (s : AcceptLoop) : Prop :=
  s.phase = .accepting → s.descriptors.opened.card ≤ 1 + s.clients.length

/-- The step gives back the socket that it is to give back. -/
def GivesBack (cfg : Config) (servlet : HiwRequest → Servlet) (s : AcceptLoop) (a : Action) :
    Prop :=
  ∀ s', step cfg servlet s a = some s' → ∀ socket ∈ s.handled a, socket ∉ s'.descriptors.opened

/-- The sockets in use are open; the other open ones are those that have been given back. -/
structure Balanced (s : AcceptLoop) : Prop where
  opened : ∀ socket ∈ s.clients, socket ∈ s.descriptors.opened
  card : s.descriptors.opened.card =
    s.server.socket.toList.length + s.clients.length + s.descriptors.shut.length

variable {cfg : Config} {servlet : HiwRequest → Servlet} {s s' : AcceptLoop} {a : Action}

/-- What a step does with server, descriptors and clients; the index is the socket that it is to
give back. -/
inductive Change (s s' : AcceptLoop) : Option ℕ → Prop
  | idle (hd : s'.descriptors = s.descriptors) (hs : s'.server = s.server)
    (hc : s'.clients = s.clients) : Change s s' none
  | accepted {socket : ℕ} (hnew : socket ∉ s.descriptors.opened) (hc : s.clients = [])
    (hd : s'.descriptors = { s.descriptors with opened := insert socket s.descriptors.opened })
    (hs : s'.server = s.server) (hc' : s'.clients = [socket]) : Change s s' none
  | refused {socket : ℕ} (hnew : socket ∉ s.descriptors.opened) (hc : s.clients = [])
    (hd : s'.descriptors = Descriptors.hiwSocketClose
      { s.descriptors with opened := insert socket s.descriptors.opened } socket)
    (hs : s'.server = s.server) (hc' : s'.clients = []) : Change s s' (some socket)
  | deleted {socket : ℕ} (hc : s.clients = [socket])
    (hd : s'.descriptors = s.descriptors.hiwSocketClose socket)
    (hs : s'.server = s.server) (hc' : s'.clients = []) : Change s s' (some socket)
  | stopped (hs : s'.server = (s.server.stop s.descriptors).1)
    (hd : s'.descriptors = (s.server.stop s.descriptors).2)
    (hc : s'.clients = s.clients) : Change s s' none

theorem change_accept {e : AcceptEvent} {client : HiwClient}
    (hstep : step cfg servlet s (.accept e client) = some s') :
    Change s s' (s.handled (.accept e client)) := by
  obtain ⟨server, descriptors, request, memoryFixed, phase⟩ := s
  cases phase <;> simp only [step, reduceCtorEq] at hstep
  by_cases hrunning : server.running = true
  · simp only [HiwServer.accept, if_pos hrunning] at hstep
    cases e with
    | fails =>
      obtain rfl := Option.some.inj hstep
      exact .idle rfl rfl rfl
    | accepts socket configured =>
      -- the system does not hand out a descriptor that is open
      by_cases hnew : socket ∈ descriptors.opened
      · simp only [Descriptors.hiwSocketAccept, if_pos hnew, reduceCtorEq] at hstep
      · simp only [Descriptors.hiwSocketAccept, if_neg hnew] at hstep
        cases configured with
        | true =>
          obtain rfl := Option.some.inj hstep
          exact .accepted hnew rfl rfl rfl rfl
        | false =>
          obtain rfl := Option.some.inj hstep
          simp only [handled, if_pos (And.intro hrunning hnew)]
          exact .refused hnew rfl rfl rfl rfl
  · simp only [HiwServer.accept, if_neg hrunning] at hstep
    obtain rfl := Option.some.inj hstep
    have hnone : handled ⟨server, descriptors, request, memoryFixed, .accepting⟩
        (.accept e client) = none := by
      unfold handled
      split
      · exact if_neg fun h => hrunning h.1
      · rfl
      · rfl
    rw [hnone]
    exact .idle rfl rfl rfl

theorem change_of_step (hstep : step cfg servlet s a = some s') : Change s s' (s.handled a) := by
  cases a with
  | check =>
    obtain ⟨server, descriptors, request, memoryFixed, phase⟩ := s
    cases phase <;> simp only [step, reduceCtorEq] at hstep
    obtain rfl := Option.some.inj hstep
    refine .idle rfl rfl ?_
    simp only [clients]
    split_ifs <;> rfl
  | accept e client => exact change_accept hstep
  | iterate =>
    obtain ⟨server, descriptors, request, memoryFixed, phase⟩ := s
    cases phase <;> simp only [step, reduceCtorEq] at hstep
    split_ifs at hstep with hretry
    obtain rfl := Option.some.inj hstep
    exact .idle rfl rfl rfl
  | delete =>
    obtain ⟨server, descriptors, request, memoryFixed, phase⟩ := s
    cases phase <;> simp only [step, reduceCtorEq] at hstep
    split_ifs at hstep with hclosed
    obtain rfl := Option.some.inj hstep
    simp only [handled, if_pos hclosed]
    exact .deleted rfl rfl rfl rfl
  | stop =>
    obtain rfl := Option.some.inj hstep
    exact .stopped rfl rfl rfl

theorem stop_sockets (server : HiwServer) (t : Descriptors) :
    (server.stop t).2.opened = t.opened ∧
      (server.stop t).1.socket.toList.length + (server.stop t).2.shut.length =
        server.socket.toList.length + t.shut.length := by
  unfold HiwServer.stop
  split_ifs
  · cases hsocket : server.socket with
    | none => exact ⟨rfl, rfl⟩
    | some socket =>
      refine ⟨rfl, ?_⟩
      simp only [Descriptors.hiwSocketClose, Option.toList_none, Option.toList_some,
        List.length_nil, List.length_append, List.length_singleton]
      omega
  · exact ⟨rfl, rfl⟩

/-- **Every open descriptor is in use or has been given back**, and stays so. -/
theorem Balanced.step (h : s.Balanced) (hstep : step cfg servlet s a = some s') : s'.Balanced := by
  have hchange := change_of_step hstep
  generalize s.handled a = handed at hchange
  have hcard := h.card
  cases hchange with
  | idle hd hs hc => exact ⟨by rw [hd, hc]; exact h.opened, by rw [hd, hs, hc]; exact hcard⟩
  | accepted hnew hc hd hs hc' =>
    rw [hc] at hcard
    refine ⟨fun x hx => ?_, ?_⟩
    · rw [hc', List.mem_singleton] at hx
      rw [hd, hx]
      exact Finset.mem_insert_self _ _
    · rw [hd, hs, hc', Finset.card_insert_of_notMem hnew, hcard]
      simp only [List.length_nil, List.length_singleton]
      omega
  -- `hiw_socket_close` shuts the socket down: it stays open, and is counted as shut from now on
  | refused hnew hc hd hs hc' =>
    rw [hc] at hcard
    refine ⟨fun x hx => by simp [hc'] at hx, ?_⟩
    rw [hd, hs, hc']
    simp only [Descriptors.hiwSocketClose, Finset.card_insert_of_notMem hnew, hcard,
      List.length_append, List.length_singleton]
    omega
  | deleted hc hd hs hc' =>
    rw [hc] at hcard
    refine ⟨fun x hx => by simp [hc'] at hx, ?_⟩
    rw [hd, hs, hc']
    simp only [Descriptors.hiwSocketClose, hcard, List.length_append, List.length_singleton,
      List.length_nil]
    omega
  | stopped hs hd hc =>
    obtain ⟨hopened, hlength⟩ := stop_sockets s.server s.descriptors
    refine ⟨by rw [hd, hc, hopened]; exact h.opened, ?_⟩
    rw [hs, hd, hc, hopened, hcard]
    omega

theorem balanced_start (listening : ℕ) (request : HiwRequest) (memoryFixed : Buf) :
    (start listening request memoryFixed).Balanced where
  opened := fun _ hx => absurd hx List.not_mem_nil
  card := rfl

/-- **What is open in any run** : the listening socket, the sockets of the clients, and every socket
that has been given back. -/
theorem card_opened {listening : ℕ} {request : HiwRequest} {memoryFixed : Buf}
    {actions : List Action}
    (hrun : runLabels (step cfg servlet) (start listening request memoryFixed) actions = some s) :
    s.descriptors.opened.card =
      s.server.socket.toList.length + s.clients.length + s.descriptors.shut.length :=
  (invariant_of_runLabels (fun _ _ _ _ => Balanced.step) (balanced_start _ _ _) hrun).card

theorem exists_step_of_handled (cfg : Config) (servlet : HiwRequest → Servlet) {socket : ℕ}
    (h : s.handled a = some socket) : ∃ s', step cfg servlet s a = some s' := by
  obtain ⟨server, descriptors, request, memoryFixed, phase⟩ := s
  unfold handled at h
  split at h
  · cases phase <;> simp only [reduceCtorEq] at h
    split_ifs at h with hnew
    simp only [step, HiwServer.accept, if_pos hnew.1, Descriptors.hiwSocketAccept, if_neg hnew.2]
    exact ⟨_, rfl⟩
  · cases phase <;> simp only [reduceCtorEq] at h
    split_ifs at h with hclosed
    simp only [step, if_pos hclosed]
    exact ⟨_, rfl⟩
  · cases h

theorem givesBack_iff_handled (h : s.Balanced) :
    GivesBack cfg servlet s a ↔ s.handled a = none := by
  constructor
  · intro hback
    by_contra hne
    obtain ⟨socket, hsocket⟩ := Option.ne_none_iff_exists'.1 hne
    obtain ⟨s', hstep⟩ := exists_step_of_handled cfg servlet hsocket
    refine hback s' hstep socket hsocket ?_
    have hchange := change_of_step hstep
    rw [hsocket] at hchange
    cases hchange with
    | refused hnew hc hd hs hc' =>
      rw [hd]
      exact Finset.mem_insert_self _ _
    | deleted hc hd hs hc' =>
      rw [hd]
      exact h.opened socket (by rw [hc]; exact List.mem_singleton_self socket)
  · intro hnone s' _ socket hsocket
    rw [hnone] at hsocket
    cases hsocket

/-- Before a socket is to be given back, only the listening socket may have been. -/
structure Quiet (s : AcceptLoop) : Prop extends s.Balanced where
  shut : s.server.socket.toList.length + s.descriptors.shut.length ≤ 1

theorem Quiet.step (h : s.Quiet) (hnone : s.handled a = none)
    (hstep : step cfg servlet s a = some s') : s'.Quiet := by
  refine ⟨h.toBalanced.step hstep, ?_⟩
  have hchange := change_of_step hstep
  rw [hnone] at hchange
  cases hchange with
  | idle hd hs hc =>
    rw [hd, hs]
    exact h.shut
  | accepted hnew hc hd hs hc' =>
    rw [hd, hs]
    exact h.shut
  | stopped hs hd hc =>
    rw [hs, hd, (stop_sockets s.server s.descriptors).2]
    exact h.shut

theorem Quiet.bounded (h : s.Quiet) : s.Bounded := by
  intro _
  have hcard := h.card
  have hshut := h.shut
  omega

theorem quiet_start (listening : ℕ) (request : HiwRequest) (memoryFixed : Buf) :
    (start listening request memoryFixed).Quiet :=
  ⟨balanced_start listening request memoryFixed, Nat.le_refl _⟩

/-- **When accepted sockets do not pile up.**  At every return to `hiw_server_accept` only the
listening socket and the clients are open, and every socket that is to be given back is not open
any more, exactly if there is none to be given back. -/
theorem givesBack_iff (cfg : Config) (servlet : HiwRequest → Servlet) (listening : ℕ)
    (request : HiwRequest) (memoryFixed : Buf) (actions : List Action) :
    (∀ t, Passes (step cfg servlet) (start listening request memoryFixed) actions t → t.Bounded) ∧
      AllSteps (step cfg servlet) (GivesBack cfg servlet) (start listening request memoryFixed)
        actions ↔
    AllSteps (step cfg servlet) (fun s a => s.handled a = none)
      (start listening request memoryFixed) actions := by
  have hsteps : AllSteps (step cfg servlet) (GivesBack cfg servlet)
      (start listening request memoryFixed) actions ↔ AllSteps (step cfg servlet)
        (fun s a => s.handled a = none) (start listening request memoryFixed) actions :=
    allSteps_congr (I := Balanced) (fun _ _ _ => Balanced.step) (fun _ _ => givesBack_iff_handled)
      (balanced_start listening request memoryFixed)
  refine ⟨fun h => hsteps.1 h.2, fun h => ⟨fun t ht => ?_, hsteps.2 h⟩⟩
  exact (h.invariant_passes (I := Quiet) (fun _ _ _ hnone hq hstep => hq.step hnone hstep)
    (quiet_start listening request memoryFixed) ht).bounded

/-- After one client that has closed there are two open descriptors at `hiw_server_accept`. -/
theorem not_givesBack : ¬∀ (cfg : Config) (servlet : HiwRequest → Servlet) (listening : ℕ)
    (request : HiwRequest) (memoryFixed : Buf) (actions : List Action) (t : AcceptLoop),
    Passes (step cfg servlet) (start listening request memoryFixed) actions t → t.Bounded := by
  intro hall
  have hrun : ∃ t, runLabels (step .default fun _ => .done)
      (start 3 (.init .default fun _ => 0) fun _ => 0)
      [.check, .accept (.accepts 4 true) (.sending []), .iterate, .delete, .check] = some t ∧
      t.phase = .accepting ∧ t.descriptors.opened = {4, 3} := ⟨_, rfl, rfl, rfl⟩
  obtain ⟨t, ht, hphase, hopened⟩ := hrun
  have hcard := hall _ _ _ _ _ _ t (.of_run ht) hphase
  rw [hopened, clients, hphase] at hcard
  exact absurd hcard (by decide)

end AcceptLoop

end Highway
