import Highway.Servlet.Accept

/-!
# From the start of a servlet to its end

`hiw_servlet_start` and `hiw_servlet_delete` as `hiw_boot_start` calls them, with the threads they
start and join, and with `hiw_boot_signal`, which may be called at any time and on any thread.
`ServletRun` takes them one line at a time, in any order, and knows what has been freed: who looks
at a freed object is recorded, and nothing is said about what comes after.

`ServletRun.Change` lists what a step can do.  `AcceptLoop`, which takes a call of
`hiw_server_accept` as one step and serves the requests of the client, moves as a thread of
`ServletRun` does (`ServletRun.LoopPc.follow_of_step`).
-/

namespace Highway

open Lib

/-! ### `hiw_server_stop` line by line -/

/-- Where a caller of `hiw_server_stop` is. -/
inductive StopPc where
  /-- At `if (s->running)`. -/
  | test
  /-- At `s->running = false`. -/
  | clear
  /-- At the test of the socket, and its `hiw_socket_close`. -/
  | close
  /-- At `s->socket = INVALID_SOCKET`. -/
  | invalidate
  deriving DecidableEq

/-- One line of `hiw_server_stop`, and where the caller is behind it. -/
def HiwServer.stopLine (s : HiwServer) (t : Descriptors) :
    StopPc → Option StopPc × HiwServer × Descriptors
  | .test => (if s.running then some .clear else none, s, t)
  | .clear => (some .close, { s with running := false }, t)
  | .close =>
    match s.socket with
    | none => (none, s, t)
    | some socket => (some .invalidate, s, t.hiwSocketClose socket)
  | .invalidate => (none, { s with socket := none }, t)

/-- The lines of `hiw_server_stop`, as long as nobody else comes between them. -/
def HiwServer.stopLines : ℕ → Option StopPc × HiwServer × Descriptors →
    Option StopPc × HiwServer × Descriptors
  | 0, r => r
  | _ + 1, (none, s, t) => (none, s, t)
  | n + 1, (some pc, s, t) => stopLines n (s.stopLine t pc)

/-- Together the lines are `hiw_server_stop`. -/
theorem HiwServer.stopLines_eq_stop (s : HiwServer) (t : Descriptors) :
    HiwServer.stopLines 4 (some .test, s, t) = (none, s.stop t) := by
  obtain ⟨socket, running⟩ := s
  cases running <;> cases socket <;> rfl

/-! ### The run -/

namespace ServletRun

/-- The objects on the heap that the parts of a servlet share. -/
inductive HeapObject where
  | server
  | servlet
  /-- The `hiw_servlet_thread` of a thread. -/
  | servletThread (k : ℕ)
  /-- Its `hiw_thread`. -/
  | thread (k : ℕ)
  deriving DecidableEq

/-- Who looks at them. -/
inductive Party where
  /-- The main thread, or a thread that it has started. -/
  | thread (who : Option ℕ)
  /-- A call of `hiw_boot_signal`. -/
  | signal (id : ℕ)
  deriving DecidableEq

/-- Where a thread is in `hiw_servlet_func`. -/
inductive LoopPc where
  /-- There is no such thread: `started` is false. -/
  | absent
  /-- At the call of `start_func`. -/
  | entry
  /-- At the condition of the loop of `hiw_servlet_start_filter_chain`. -/
  | checking
  /-- At the test in `hiw_server_accept`. -/
  | accepting
  /-- In `accept`. -/
  | blocked
  /-- With a client. -/
  | serving
  /-- Returned. -/
  | returned
  deriving DecidableEq

/-- How a step of the loop goes. -/
inductive Choice where
  /-- By itself; a client is deleted. -/
  | goOn
  /-- `accept` fails for a reason of its own. -/
  | fail
  /-- `accept` gives a client. -/
  | client
  /-- The connection is kept for one more request. -/
  | keep
  deriving DecidableEq

/-- One step of a thread; `accept` waits as long as the listening socket is not shut down. -/
def LoopPc.next (running shut : Bool) : LoopPc → Choice → Option LoopPc
  | .entry, .goOn => some .checking
  | .checking, .goOn => some (if running then .accepting else .returned)
  | .accepting, .goOn => some (if running then .blocked else .checking)
  | .blocked, .goOn => if shut then some .checking else none
  | .blocked, .fail => some .checking
  | .blocked, .client => some .serving
  | .serving, .keep => some .serving
  | .serving, .goOn => some .checking
  | _, _ => none

/-- The thread does not run. -/
def LoopPc.Idle (pc : LoopPc) : Prop := pc = .absent ∨ pc = .returned

/-- The objects of one thread; those of the main thread are not on the heap. -/
def own : Option ℕ → List HeapObject
  | none => []
  | some k => [.servletThread k, .thread k]

/-- What a step of a thread looks at. -/
def LoopPc.uses (who : Option ℕ) : LoopPc → List HeapObject
  | .absent | .returned => []
  | .entry | .serving => own who ++ [.servlet]
  | .checking | .accepting => own who ++ [.servlet, .server]
  | .blocked => own who ++ [.server]

/-- Where the main thread is. -/
inductive MainPc where
  /-- In `hiw_servlet_start_threads`, at the thread of the given number. -/
  | starting (k : ℕ)
  /-- In its own `hiw_servlet_func`. -/
  | looping
  /-- In `hiw_servlet_release`, which calls `hiw_server_stop`. -/
  | stopping (pc : StopPc)
  /-- At the thread of the given number: at the `pthread_join` of `hiw_thread_wait`, -/
  | joining (k : ℕ)
  /-- at the `free` of `hiw_thread_delete`, -/
  | freeingThread (k : ℕ)
  /-- and at the one of `hiw_servlet_thread_delete`. -/
  | freeingServletThread (k : ℕ)
  /-- In `hiw_server_delete`, at the test of the socket. -/
  | closingServer
  /-- At its `free`. -/
  | freeingServer
  /-- At the `free` of `hiw_servlet_delete`. -/
  | freeingServlet
  /-- Back in `hiw_boot_start`. -/
  | done
  deriving DecidableEq

/-- What a step of the main thread outside of its own loop looks at. -/
def MainPc.uses (count : ℕ) : MainPc → List HeapObject
  | .starting k => if k < count then [.servlet, .servletThread k, .thread k] else [.servlet]
  | .looping | .done => []
  | .stopping _ | .closingServer | .freeingServer => [.servlet, .server]
  | .joining k => if k < count then [.servletThread k, .thread k] else [.servlet]
  | .freeingThread k => [.servletThread k, .thread k]
  | .freeingServletThread k => [.servletThread k]
  | .freeingServlet => [.servlet]

end ServletRun

/-- A servlet with its threads. -/
structure ServletRun where
  /-- The servlet threads: `num_accept_threads` of them, or none if it is negative. -/
  count : ℕ
  server : HiwServer
  descriptors : Descriptors
  main : ServletRun.MainPc
  /-- The threads; the main thread has no number. -/
  loop : Option ℕ → ServletRun.LoopPc
  /-- The calls of `hiw_boot_signal` that are in `hiw_server_stop`. -/
  signal : ℕ → Option StopPc
  freed : List ServletRun.HeapObject
  /-- The threads that `pthread_join` was called for. -/
  joined : List ℕ
  /-- The clients that a thread has got since `running` is false. -/
  late : Option ℕ → ℕ
  /-- Who has looked at which freed object. -/
  fault : Option (ServletRun.Party × ServletRun.HeapObject)

namespace ServletRun

/-- What can happen next. -/
inductive Action where
  /-- The main thread goes on; `created` says whether `pthread_create` succeeds. -/
  | main (created : Bool)
  /-- A thread goes on in its loop. -/
  | loop (who : Option ℕ) (c : Choice)
  /-- A call of `hiw_boot_signal` starts or goes on. -/
  | signal (id : ℕ)

/-- The main thread goes on. -/
def mainStep (s : ServletRun) (created : Bool) : Option ServletRun :=
  match s.main with
  | .starting k =>
    if k < s.count then
      if created then
        some { s with
          main := .starting (k + 1), loop := Function.update s.loop (some k) .entry }
      -- `hiw_boot_start` deletes the servlet whatever `hiw_servlet_start` returns
      else some { s with main := .stopping .test }
    else some { s with main := .looping, loop := Function.update s.loop none .entry }
  | .looping =>
    if s.loop none = .returned then some { s with main := .stopping .test } else none
  | .stopping pc =>
    let (pc, server, descriptors) := s.server.stopLine s.descriptors pc
    some { s with
      server
      descriptors
      main :=
        match pc with
        | some pc => .stopping pc
        | none => .joining 0 }
  | .joining k =>
    if k < s.count then
      match s.loop (some k) with
      | .absent => some { s with main := .freeingThread k }
      | .returned => some { s with main := .freeingThread k, joined := s.joined ++ [k] }
      | _ => none
    else some { s with main := .closingServer }
  | .freeingThread k =>
    some { s with main := .freeingServletThread k, freed := s.freed ++ [.thread k] }
  | .freeingServletThread k =>
    some { s with main := .joining (k + 1), freed := s.freed ++ [.servletThread k] }
  | .closingServer =>
    match s.server.socket with
    | none => some { s with main := .freeingServer }
    | some socket =>
      some { s with
        server := { s.server with socket := none }
        descriptors := s.descriptors.hiwSocketClose socket
        main := .freeingServer }
  | .freeingServer => some { s with main := .freeingServlet, freed := s.freed ++ [.server] }
  | .freeingServlet => some { s with main := .done, freed := s.freed ++ [.servlet] }
  | .done => none

/-- The listening socket is shut down, so that `accept` does not wait. -/
def shut (s : ServletRun) : Bool := !s.descriptors.shut.isEmpty

/-- A thread goes on in its loop. -/
def loopStep (s : ServletRun) (who : Option ℕ) (c : Choice) : Option ServletRun :=
  ((s.loop who).next s.server.running s.shut c).map fun pc =>
    { s with
      loop := Function.update s.loop who pc
      late :=
        if c = .client ∧ s.server.running = false then
          Function.update s.late who (s.late who + 1)
        else s.late }

/-- `hiw_boot_signal` : it stops a server that is running. -/
def signalStep (s : ServletRun) (id : ℕ) : ServletRun :=
  match s.signal id with
  | none =>
    if s.server.running then { s with signal := Function.update s.signal id (some .test) } else s
  | some pc =>
    let (pc, server, descriptors) := s.server.stopLine s.descriptors pc
    { s with server, descriptors, signal := Function.update s.signal id pc }

/-- Who makes a step. -/
def Action.party : Action → Party
  | .main _ => .thread none
  | .loop who _ => .thread who
  | .signal id => .signal id

/-- What a step looks at. -/
def uses (s : ServletRun) : Action → List HeapObject
  | .main _ => s.main.uses s.count
  | .loop who _ => (s.loop who).uses who
  | .signal _ => [.server]

/-- A step where everything that it looks at is still there. -/
def goOn (s : ServletRun) : Action → Option ServletRun
  | .main created => s.mainStep created
  | .loop who c => s.loopStep who c
  | .signal id => some (s.signalStep id)

/-- One step; `none` when it is not possible, or behind a fault. -/
def step (s : ServletRun) (a : Action) : Option ServletRun :=
  if s.fault.isSome then none
  else
    (s.goOn a).map fun s' =>
      match (s.uses a).find? (· ∈ s.freed) with
      | none => s'
      | some o => { s with fault := some (a.party, o) }

/-- The servlet of a server that listens at the given socket, at `hiw_servlet_start_threads`. -/
def start (count listening : ℕ) : ServletRun where
  count := count
  server := ⟨some listening, true⟩
  descriptors := ⟨{listening}, []⟩
  main := .starting 0
  loop := fun _ => .absent
  signal := fun _ => none
  freed := []
  joined := []
  late := fun _ => 0
  fault := none

/-! ### What a step can do -/

section Invariants

variable {s s' : ServletRun} {a : Action} {who : Option ℕ} {c : Choice} {id : ℕ}

/-- A step either finds everything that it looks at, or is the fault. -/
theorem step_cases (h : s.step a = some s') :
    (s.goOn a = some s' ∧ ∀ o ∈ s.uses a, o ∉ s.freed) ∨
      ∃ o ∈ s.uses a, o ∈ s.freed ∧ s' = { s with fault := some (a.party, o) } := by
  unfold step at h
  split_ifs at h
  obtain ⟨t, hgo, rfl⟩ := Option.map_eq_some_iff.1 h
  cases hfind : (s.uses a).find? (· ∈ s.freed) with
  | none =>
    refine .inl ⟨hgo, fun o ho => ?_⟩
    simpa using List.find?_eq_none.1 hfind o ho
  | some o =>
    refine .inr ⟨o, List.mem_of_find?_eq_some hfind, ?_, rfl⟩
    simpa using List.find?_some hfind

theorem fault_eq_none_of_step (h : s.step a = some s') : s.fault = none := by
  unfold step at h
  split_ifs at h with hfault
  simpa using hfault

/-- The steps on objects that are still there. -/
inductive Change (s : ServletRun) : Action → ServletRun → Prop
  | created {k : ℕ} (hmain : s.main = .starting k) (hk : k < s.count) :
    Change s (.main true)
      { s with main := .starting (k + 1), loop := Function.update s.loop (some k) .entry }
  | refused {k : ℕ} (hmain : s.main = .starting k) (hk : k < s.count) :
    Change s (.main false) { s with main := .stopping .test }
  | entered {k : ℕ} {created : Bool} (hmain : s.main = .starting k) (hk : ¬ k < s.count) :
    Change s (.main created)
      { s with main := .looping, loop := Function.update s.loop none .entry }
  | left {created : Bool} (hmain : s.main = .looping) (hloop : s.loop none = .returned) :
    Change s (.main created) { s with main := .stopping .test }
  | stopLine {pc pc' : StopPc} {server : HiwServer} {t : Descriptors} {created : Bool}
    (hmain : s.main = .stopping pc)
    (hline : s.server.stopLine s.descriptors pc = (some pc', server, t)) :
    Change s (.main created) { s with server, descriptors := t, main := .stopping pc' }
  | stopped {pc : StopPc} {server : HiwServer} {t : Descriptors} {created : Bool}
    (hmain : s.main = .stopping pc)
    (hline : s.server.stopLine s.descriptors pc = (none, server, t)) :
    Change s (.main created) { s with server, descriptors := t, main := .joining 0 }
  | skipped {k : ℕ} {created : Bool} (hmain : s.main = .joining k) (hk : k < s.count)
    (hloop : s.loop (some k) = .absent) :
    Change s (.main created) { s with main := .freeingThread k }
  | joined {k : ℕ} {created : Bool} (hmain : s.main = .joining k) (hk : k < s.count)
    (hloop : s.loop (some k) = .returned) :
    Change s (.main created) { s with main := .freeingThread k, joined := s.joined ++ [k] }
  | allJoined {k : ℕ} {created : Bool} (hmain : s.main = .joining k) (hk : ¬ k < s.count) :
    Change s (.main created) { s with main := .closingServer }
  | freedThread {k : ℕ} {created : Bool} (hmain : s.main = .freeingThread k) :
    Change s (.main created)
      { s with main := .freeingServletThread k, freed := s.freed ++ [.thread k] }
  | freedServletThread {k : ℕ} {created : Bool} (hmain : s.main = .freeingServletThread k) :
    Change s (.main created)
      { s with main := .joining (k + 1), freed := s.freed ++ [.servletThread k] }
  | noSocket {created : Bool} (hmain : s.main = .closingServer)
    (hsocket : s.server.socket = none) :
    Change s (.main created) { s with main := .freeingServer }
  | closed {socket : ℕ} {created : Bool} (hmain : s.main = .closingServer)
    (hsocket : s.server.socket = some socket) :
    Change s (.main created)
      { s with
        server := { s.server with socket := none }
        descriptors := s.descriptors.hiwSocketClose socket
        main := .freeingServer }
  | freedServer {created : Bool} (hmain : s.main = .freeingServer) :
    Change s (.main created) { s with main := .freeingServlet, freed := s.freed ++ [.server] }
  | freedServlet {created : Bool} (hmain : s.main = .freeingServlet) :
    Change s (.main created) { s with main := .done, freed := s.freed ++ [.servlet] }
  | looped {who : Option ℕ} {c : Choice} {pc : LoopPc}
    (hnext : (s.loop who).next s.server.running s.shut c = some pc) :
    Change s (.loop who c)
      { s with
        loop := Function.update s.loop who pc
        late :=
          if c = .client ∧ s.server.running = false then
            Function.update s.late who (s.late who + 1)
          else s.late }
  | ignored {id : ℕ} (hidle : s.signal id = none) (hrun : ¬ s.server.running = true) :
    Change s (.signal id) s
  | signalled {id : ℕ} (hidle : s.signal id = none) (hrun : s.server.running = true) :
    Change s (.signal id) { s with signal := Function.update s.signal id (some .test) }
  | signalLine {id : ℕ} {pc : StopPc} {pc' : Option StopPc} {server : HiwServer}
    {t : Descriptors} (hpc : s.signal id = some pc)
    (hline : s.server.stopLine s.descriptors pc = (pc', server, t)) :
    Change s (.signal id)
      { s with server, descriptors := t, signal := Function.update s.signal id pc' }

theorem change_of_mainStep {created : Bool} (h : s.mainStep created = some s') :
    Change s (.main created) s' := by
  unfold mainStep at h
  split at h
  next k hmain =>
    by_cases hk : k < s.count
    · rw [if_pos hk] at h
      cases created with
      | true =>
        obtain rfl := Option.some.inj h
        exact .created hmain hk
      | false =>
        obtain rfl := Option.some.inj h
        exact .refused hmain hk
    · rw [if_neg hk] at h
      obtain rfl := Option.some.inj h
      exact .entered hmain hk
  next hmain =>
    split_ifs at h with hloop
    obtain rfl := Option.some.inj h
    exact .left hmain hloop
  next pc hmain =>
    rcases hline : s.server.stopLine s.descriptors pc with ⟨pc', server, t⟩
    rw [hline] at h
    obtain rfl := Option.some.inj h
    cases pc' with
    | none => exact .stopped hmain hline
    | some pc' => exact .stopLine hmain hline
  next k hmain =>
    by_cases hk : k < s.count
    · rw [if_pos hk] at h
      split at h
      next hloop =>
        obtain rfl := Option.some.inj h
        exact .skipped hmain hk hloop
      next hloop =>
        obtain rfl := Option.some.inj h
        exact .joined hmain hk hloop
      next => cases h
    · rw [if_neg hk] at h
      obtain rfl := Option.some.inj h
      exact .allJoined hmain hk
  next k hmain =>
    obtain rfl := Option.some.inj h
    exact .freedThread hmain
  next k hmain =>
    obtain rfl := Option.some.inj h
    exact .freedServletThread hmain
  next hmain =>
    split at h
    next hsocket =>
      obtain rfl := Option.some.inj h
      exact .noSocket hmain hsocket
    next socket hsocket =>
      obtain rfl := Option.some.inj h
      exact .closed hmain hsocket
  next hmain =>
    obtain rfl := Option.some.inj h
    exact .freedServer hmain
  next hmain =>
    obtain rfl := Option.some.inj h
    exact .freedServlet hmain
  next => cases h

theorem change_of_goOn (h : s.goOn a = some s') : Change s a s' := by
  cases a with
  | main created => exact change_of_mainStep h
  | loop who c =>
    obtain ⟨pc, hnext, rfl⟩ := Option.map_eq_some_iff.1 h
    exact .looped hnext
  | signal id =>
    obtain rfl := Option.some.inj h
    unfold signalStep
    split
    next hidle =>
      split_ifs with hrun
      · exact .signalled hidle hrun
      · exact .ignored hidle hrun
    next pc hpc =>
      rcases hline : s.server.stopLine s.descriptors pc with ⟨pc', server, t⟩
      exact .signalLine hpc hline

end Invariants

/-! ### The accept loop of a thread -/

/-- Where a thread is that is somewhere in `AcceptLoop`. -/
def LoopPc.ofPhase : AcceptLoop.Phase → LoopPc
  | .checking => .checking
  | .accepting => .accepting
  | .serving _ _ => .serving
  | .returned => .returned

/-- Steps of one thread, while nobody stops the server. -/
def LoopPc.follow (running shut : Bool) (pc : LoopPc) (cs : List Choice) : Option LoopPc :=
  runLabels (fun pc c => pc.next running shut c) pc cs

/-- **`AcceptLoop` moves as a thread of `ServletRun`**, in at most two steps. -/
theorem LoopPc.follow_of_step {cfg : Config} {servlet : HiwRequest → Servlet}
    {l l' : AcceptLoop} {a : AcceptLoop.Action} (shut : Bool)
    (hstep : AcceptLoop.step cfg servlet l a = some l') :
    ∃ cs, cs.length ≤ 2 ∧
      LoopPc.follow l.server.running shut (.ofPhase l.phase) cs = some (.ofPhase l'.phase) := by
  obtain ⟨server, descriptors, request, memoryFixed, phase⟩ := l
  cases a with
  | check =>
    cases phase <;> simp only [AcceptLoop.step, reduceCtorEq] at hstep
    obtain rfl := Option.some.inj hstep
    refine ⟨[.goOn], Nat.le_succ 1, ?_⟩
    cases hrun : server.running <;> simp [LoopPc.follow, runLabels_cons, LoopPc.next,
      LoopPc.ofPhase]
  | accept e client =>
    cases phase <;> simp only [AcceptLoop.step, reduceCtorEq] at hstep
    cases hrun : server.running with
    | false =>
      refine ⟨[.goOn], Nat.le_succ 1, ?_⟩
      simp only [HiwServer.accept, hrun, Bool.false_eq_true, if_false] at hstep
      obtain rfl := Option.some.inj hstep
      rfl
    | true =>
      simp only [HiwServer.accept, hrun, if_true] at hstep
      cases haccept : descriptors.hiwSocketAccept e with
      | none =>
        rw [haccept] at hstep
        cases hstep
      | some result =>
        obtain ⟨socket, t⟩ := result
        cases socket with
        | none =>
          rw [haccept] at hstep
          obtain rfl := Option.some.inj hstep
          exact ⟨[.goOn, .fail], Nat.le_refl 2, rfl⟩
        | some socket =>
          rw [haccept] at hstep
          obtain rfl := Option.some.inj hstep
          exact ⟨[.goOn, .client], Nat.le_refl 2, rfl⟩
  | iterate =>
    cases phase <;> simp only [AcceptLoop.step, reduceCtorEq] at hstep
    split_ifs at hstep
    obtain rfl := Option.some.inj hstep
    exact ⟨[.keep], Nat.le_succ 1, rfl⟩
  | delete =>
    cases phase <;> simp only [AcceptLoop.step, reduceCtorEq] at hstep
    split_ifs at hstep
    obtain rfl := Option.some.inj hstep
    exact ⟨[.goOn], Nat.le_succ 1, rfl⟩
  | stop =>
    obtain rfl := Option.some.inj hstep
    exact ⟨[], Nat.zero_le 2, rfl⟩

end ServletRun

end Highway
