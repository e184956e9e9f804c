import Highway.Lib.Run
import Highway.Server.Listen

/-!
# The sockets of a server

`ServerRun` takes the functions of a server, and those of the clients it has accepted, in any order.
A listening socket is lost exactly if `hiw_server_start` is called while the server has one
(`ServerRun.kept_iff_of_run`).
-/

namespace Highway

open Lib

/-- `hiw_server_error` -/
inductive HiwServerError where
  | success
  | memory
  | running
  | socket
  deriving DecidableEq, Repr

namespace HiwServer

/-- `hiw_server_start` -/
def start (s : HiwServer) (t : Descriptors) (config : HiwSocketConfig) (sys : SocketSystem) :
    Option (HiwServerError × HiwServer × Descriptors) :=
  (t.hiwSocketListen config sys).map fun (err, socket, t) =>
    let s := { s with socket }
    if err ≠ .success then (.socket, s, t) else (.success, { s with running := true }, t)

/-- `hiw_server_set_userdata` : whether it is set. -/
def setUserdata (s : HiwServer) : HiwServerError := if s.socket ≠ none then .running else .success

/-- `hiw_server_delete` ; `none` where it asserts that the server is not running. -/
def delete (s : HiwServer) (t : Descriptors) : Option Descriptors :=
  if s.running then none
  else
    match s.socket with
    | none => some t
    | some socket => some (t.hiwSocketClose socket)

end HiwServer

/-- A server and its clients. -/
structure ServerRun (D : Type*) where
  server : HiwServer
  userdata : Option D
  descriptors : Descriptors
  /-- The sockets that have been opened to listen. -/
  listening : List ℕ
  /-- The sockets of the clients that have been accepted and not disconnected. -/
  clients : List ℕ

namespace ServerRun

variable {D : Type*}

/-- What can be done with a server. -/
inductive Action (D : Type*) where
  | start (sys : SocketSystem)
  | setUserdata (userdata : Option D)
  | stop
  | accept (e : AcceptEvent)
  /-- `hiw_client_disconnect`, or `hiw_client_delete` -/
  | disconnect (socket : ℕ)

/-- One call; `none` when it is not possible. -/
def step (config : HiwSocketConfig) (s : ServerRun D) : Action D → Option (ServerRun D)
  | .start sys =>
    (s.server.start s.descriptors config sys).map fun (_, server, descriptors) =>
      { s with server, descriptors, listening := s.listening ++ sys.socket.toList }
  | .setUserdata userdata =>
    if s.server.setUserdata = .success then some { s with userdata } else some s
  | .stop =>
    let (server, descriptors) := s.server.stop s.descriptors
    some { s with server, descriptors }
  | .accept e =>
    -- `accept` of `INVALID_SOCKET` fails
    if s.server.socket = none ∧ e ≠ .fails then none
    else
      (s.server.accept s.descriptors e).map fun (socket, descriptors) =>
        { s with descriptors, clients := s.clients ++ socket.toList }
  | .disconnect socket =>
    if socket ∈ s.clients then
      some { s with
        descriptors := s.descriptors.hiwClientDelete (some socket)
        clients := s.clients.erase socket }
    else none

/-- A server made by `hiw_server_new`, in a process that has not shut down anything. -/
def new (opened : Finset ℕ) : ServerRun D where
  server := ⟨none, false⟩
  userdata := none
  descriptors := ⟨opened, []⟩
  listening := []
  clients := []

/-- Every listening socket has been shut down, or is the socket of the server. -/
def Kept (s : ServerRun D) : Prop :=
  ∀ x ∈ s.listening, x ∈ s.descriptors.shut ∨ s.server.socket = some x

/-- The server is started without a socket. -/
def StartsIdle (s : ServerRun D) : Action D → Prop
  | .start _ => s.server.socket = none
  | _ => True

/-! ### What a call can do -/

variable {config : HiwSocketConfig} {s s' : ServerRun D}

/-- The descriptor is open. -/
def opening (s : ServerRun D) (x : ℕ) : Finset ℕ := insert x s.descriptors.opened

theorem step_start {sys : SocketSystem} (h : s.step config (.start sys) = some s') :
    (s' = { s with server := { s.server with socket := none } }) ∨
      ∃ x ∉ s.descriptors.opened,
        (s' = { s with
          server := ⟨some x, true⟩
          descriptors := ⟨s.opening x, s.descriptors.shut⟩
          listening := s.listening ++ [x] }) ∨
        s' = { s with
          server := { s.server with socket := none }
          descriptors := ⟨s.opening x, s.descriptors.shut ++ [x]⟩
          listening := s.listening ++ [x] } := by
  obtain ⟨⟨e, server, t⟩, hstart, rfl⟩ := Option.map_eq_some_iff.1 h
  obtain ⟨⟨err, socket, t'⟩, hlisten, heq⟩ := Option.map_eq_some_iff.1 hstart
  unfold Descriptors.hiwSocketListen at hlisten
  cases hsocket : sys.socket with
  | none =>
    rw [hsocket] at hlisten
    obtain ⟨rfl, rfl, rfl⟩ : HiwSocketError.create = err ∧ none = socket ∧ s.descriptors = t' := by
      simpa using hlisten
    obtain ⟨-, rfl, rfl⟩ : _ ∧ _ ∧ _ := by simpa using heq
    exact .inl (by simp)
  | some x =>
    rw [hsocket] at hlisten
    dsimp only at hlisten
    split_ifs at hlisten with hnew
    obtain ⟨err', -, herr⟩ := Option.map_eq_some_iff.1 hlisten
    refine .inr ⟨x, hnew, ?_⟩
    split_ifs at herr with hsuccess
    · obtain ⟨rfl, rfl, rfl⟩ : err' = err ∧ some x = socket ∧ _ = t' := by simpa using herr
      obtain ⟨-, rfl, rfl⟩ : _ ∧ _ ∧ _ := by simpa [hsuccess] using heq
      exact .inl rfl
    · obtain ⟨rfl, rfl, rfl⟩ : err' = err ∧ none = socket ∧ _ = t' := by simpa using herr
      obtain ⟨-, rfl, rfl⟩ : _ ∧ _ ∧ _ := by simpa [hsuccess] using heq
      exact .inr rfl

theorem step_accept {e : AcceptEvent} (h : s.step config (.accept e) = some s') :
    s' = s ∨
      ∃ x ∉ s.descriptors.opened,
        (s' = { s with
          descriptors := ⟨s.opening x, s.descriptors.shut⟩, clients := s.clients ++ [x] }) ∨
        s' = { s with descriptors := ⟨s.opening x, s.descriptors.shut ++ [x]⟩ } := by
  simp only [step] at h
  split_ifs at h
  obtain ⟨⟨socket, t⟩, haccept, rfl⟩ := Option.map_eq_some_iff.1 h
  unfold HiwServer.accept at haccept
  split_ifs at haccept
  · cases e with
    | fails =>
      obtain ⟨rfl, rfl⟩ : none = socket ∧ s.descriptors = t := by
        simpa [Descriptors.hiwSocketAccept] using haccept
      exact .inl (by simp)
    | accepts x configured =>
      simp only [Descriptors.hiwSocketAccept] at haccept
      split_ifs at haccept with hnew hconfigured
      · obtain ⟨rfl, rfl⟩ : some x = socket ∧ _ = t := by simpa using haccept
        exact .inr ⟨x, hnew, .inl rfl⟩
      · obtain ⟨rfl, rfl⟩ : none = socket ∧ _ = t := by simpa using haccept
        exact .inr ⟨x, hnew, .inr (by simp [Descriptors.hiwSocketClose, opening])⟩
  · obtain ⟨rfl, rfl⟩ : none = socket ∧ s.descriptors = t := by simpa using haccept
    exact .inl (by simp)

theorem step_stop (h : s.step config .stop = some s') :
    (s.server.running = false ∧ s' = s) ∨
      (s.server.socket = none ∧ s' = { s with server := { s.server with running := false } }) ∨
      ∃ x, s.server.socket = some x ∧
        s' = { s with
          server := ⟨none, false⟩
          descriptors := ⟨s.descriptors.opened, s.descriptors.shut ++ [x]⟩ } := by
  simp only [step, HiwServer.stop] at h
  split_ifs at h with hrunning
  · cases hsocket : s.server.socket with
    | none =>
      rw [hsocket] at h
      refine .inr (.inl ⟨rfl, ?_⟩)
      rw [← Option.some.inj h]
      simp [hsocket]
    | some x =>
      rw [hsocket] at h
      exact .inr (.inr ⟨x, rfl, (Option.some.inj h).symm⟩)
  · exact .inl ⟨by simpa using hrunning, (Option.some.inj h).symm⟩

theorem step_disconnect {x : ℕ} (h : s.step config (.disconnect x) = some s') :
    x ∈ s.clients ∧ s' = { s with
      descriptors := ⟨s.descriptors.opened, s.descriptors.shut ++ [x]⟩
      clients := s.clients.erase x } := by
  simp only [step] at h
  split_ifs at h with hx
  exact ⟨hx, (Option.some.inj h).symm⟩

/-! ### What is kept -/

/-- The invariant of a run. -/
structure Tidy (s : ServerRun D) : Prop where
  current : ∀ x, s.server.socket = some x → x ∈ s.listening ∧ x ∉ s.descriptors.shut
  idle : s.server.running = false → s.server.socket = none
  listening : ∀ x ∈ s.listening, x ∈ s.descriptors.opened
  accepted : ∀ x ∈ s.clients,
    x ∈ s.descriptors.opened ∧ x ∉ s.listening ∧ x ∉ s.descriptors.shut
  shut : ∀ x ∈ s.descriptors.shut, x ∈ s.descriptors.opened
  clients : s.clients.Nodup
  once : s.descriptors.shut.Nodup

theorem tidy_new (opened : Finset ℕ) : (new opened : ServerRun D).Tidy where
  current := by simp [new]
  idle := by simp [new]
  listening := by simp [new]
  accepted := by simp [new]
  shut := by simp [new]
  clients := List.nodup_nil
  once := List.nodup_nil

theorem Tidy.of_server {server : HiwServer} {userdata : Option D} (h : s.Tidy)
    (hsocket : server.socket = none ∨ server = s.server) :
    Tidy { s with server, userdata } := by
  refine ⟨fun x hx => ?_, fun hrunning => ?_, h.listening, h.accepted, h.shut, h.clients, h.once⟩
  · rcases hsocket with hnone | rfl
    · rw [hnone] at hx
      cases hx
    · exact h.current x hx
  · exact hsocket.elim id fun heq => heq ▸ h.idle (heq ▸ hrunning)

theorem Tidy.fresh (h : s.Tidy) {x : ℕ} (hx : x ∉ s.descriptors.opened) :
    x ∉ s.listening ∧ x ∉ s.clients ∧ x ∉ s.descriptors.shut :=
  ⟨fun hl => hx (h.listening x hl), fun hc => hx (h.accepted x hc).1, fun hs => hx (h.shut x hs)⟩

theorem mem_opening {x y : ℕ} (h : y ∈ s.descriptors.opened) : y ∈ s.opening x :=
  Finset.mem_insert_of_mem h

theorem Tidy.listened (h : s.Tidy) {x : ℕ} (hx : x ∉ s.descriptors.opened) :
    Tidy { s with
      server := ⟨some x, true⟩
      descriptors := ⟨s.opening x, s.descriptors.shut⟩
      listening := s.listening ++ [x] } ∧
    Tidy { s with
      server := { s.server with socket := none }
      descriptors := ⟨s.opening x, s.descriptors.shut ++ [x]⟩
      listening := s.listening ++ [x] } := by
  obtain ⟨hlistening, hclients, hshut⟩ := h.fresh hx
  have hself : x ∈ s.opening x := Finset.mem_insert_self _ _
  have hlistening' : ∀ y ∈ s.listening ++ [x], y ∈ s.opening x := by
    intro y hy
    rcases List.mem_append.1 hy with hy | hy
    · exact mem_opening (h.listening y hy)
    · rwa [List.mem_singleton.1 hy]
  have haccepted : ∀ y ∈ s.clients, y ∈ s.opening x ∧ y ∉ s.listening ++ [x] ∧
      y ∉ s.descriptors.shut ++ [x] := by
    intro y hy
    obtain ⟨hopened, hl, hs⟩ := h.accepted y hy
    have hyx : y ≠ x := fun heq => hclients (heq ▸ hy)
    exact ⟨mem_opening hopened, by simp [hl, hyx], by simp [hs, hyx]⟩
  refine ⟨⟨?_, by simp, hlistening', fun y hy => ?_, fun y hy => mem_opening (h.shut y hy),
    h.clients, h.once⟩, ⟨by simp, fun _ => rfl, hlistening', haccepted, fun y hy => ?_, h.clients,
    ?_⟩⟩
  · rintro y ⟨rfl⟩
    exact ⟨List.mem_append_right _ List.mem_cons_self, hshut⟩
  · obtain ⟨hopened, hl, hs⟩ := haccepted y hy
    exact ⟨hopened, hl, fun hy => hs (List.mem_append_left _ hy)⟩
  · rcases List.mem_append.1 hy with hy | hy
    · exact mem_opening (h.shut y hy)
    · rwa [List.mem_singleton.1 hy]
  · exact h.once.append (List.nodup_singleton x) (by simpa using hshut)

theorem Tidy.accepts (h : s.Tidy) {x : ℕ} (hx : x ∉ s.descriptors.opened) :
    Tidy { s with
      descriptors := ⟨s.opening x, s.descriptors.shut⟩, clients := s.clients ++ [x] } ∧
    Tidy { s with descriptors := ⟨s.opening x, s.descriptors.shut ++ [x]⟩ } := by
  obtain ⟨hlistening, hclients, hshut⟩ := h.fresh hx
  have hself : x ∈ s.opening x := Finset.mem_insert_self _ _
  refine ⟨⟨h.current, h.idle, fun y hy => mem_opening (h.listening y hy), fun y hy => ?_,
    fun y hy => mem_opening (h.shut y hy), ?_, h.once⟩,
    ⟨fun y hy => ?_, h.idle, fun y hy => mem_opening (h.listening y hy), fun y hy => ?_,
    fun y hy => ?_, h.clients, ?_⟩⟩
  · rcases List.mem_append.1 hy with hy | hy
    · obtain ⟨hopened, hl, hs⟩ := h.accepted y hy
      exact ⟨mem_opening hopened, hl, hs⟩
    · rw [List.mem_singleton.1 hy]
      exact ⟨hself, hlistening, hshut⟩
  · exact h.clients.append (List.nodup_singleton x) (by simpa using hclients)
  · obtain ⟨hl, hs⟩ := h.current y hy
    have hyx : y ≠ x := fun heq => hlistening (heq ▸ hl)
    exact ⟨hl, by simp [hs, hyx]⟩
  · obtain ⟨hopened, hl, hs⟩ := h.accepted y hy
    have hyx : y ≠ x := fun heq => hclients (heq ▸ hy)
    exact ⟨mem_opening hopened, hl, by simp [hs, hyx]⟩
  · rcases List.mem_append.1 hy with hy | hy
    · exact mem_opening (h.shut y hy)
    · rwa [List.mem_singleton.1 hy]
  · exact h.once.append (List.nodup_singleton x) (by simpa using hshut)

theorem Tidy.gave {x : ℕ} {server : HiwServer} {clients : List ℕ} (h : s.Tidy)
    (hserver : server.socket = none ∨ server = s.server ∧ s.server.socket ≠ some x)
    (hopened : x ∈ s.descriptors.opened) (hshut : x ∉ s.descriptors.shut)
    (hclients : clients.Sublist s.clients) (hx : x ∉ clients) :
    Tidy { s with
      server
      descriptors := ⟨s.descriptors.opened, s.descriptors.shut ++ [x]⟩
      clients } := by
  refine ⟨fun y hy => ?_, fun hrunning => ?_, h.listening, fun y hy => ?_, fun y hy => ?_,
    hclients.nodup h.clients, h.once.append (List.nodup_singleton x) (by simpa using hshut)⟩
  · rcases hserver with hnone | ⟨rfl, hne⟩
    · rw [hnone] at hy
      cases hy
    · obtain ⟨hl, hs⟩ := h.current y hy
      have hyx : y ≠ x := fun heq => hne (heq ▸ hy)
      exact ⟨hl, by simp [hs, hyx]⟩
  · exact hserver.elim id fun heq => heq.1 ▸ h.idle (heq.1 ▸ hrunning)
  · obtain ⟨ho, hl, hs⟩ := h.accepted y (hclients.subset hy)
    have hyx : y ≠ x := fun heq => hx (heq ▸ hy)
    exact ⟨ho, hl, by simp [hs, hyx]⟩
  · rcases List.mem_append.1 hy with hy | hy
    · exact h.shut y hy
    · rwa [List.mem_singleton.1 hy]

/-- **Every call keeps the sockets in order.** -/
theorem Tidy.step (h : s.Tidy) {a : Action D} (hstep : s.step config a = some s') : s'.Tidy := by
  cases a with
  | start sys =>
    rcases step_start hstep with rfl | ⟨x, hx, rfl | rfl⟩
    · exact h.of_server (.inl rfl)
    · exact (h.listened hx).1
    · exact (h.listened hx).2
  | setUserdata userdata =>
    simp only [ServerRun.step] at hstep
    split_ifs at hstep
    · obtain rfl := Option.some.inj hstep
      exact h.of_server (.inr rfl)
    · exact Option.some.inj hstep ▸ h
  | stop =>
    rcases step_stop hstep with ⟨-, rfl⟩ | ⟨hnone, rfl⟩ | ⟨x, hx, rfl⟩
    · exact h
    · exact h.of_server (.inl hnone)
    · obtain ⟨hl, hs⟩ := h.current x hx
      exact h.gave (.inl rfl) (h.listening x hl) hs (List.Sublist.refl _) fun hc =>
        (h.accepted x hc).2.1 hl
  | accept e =>
    rcases step_accept hstep with rfl | ⟨x, hx, rfl | rfl⟩
    · exact h
    · exact (h.accepts hx).1
    · exact (h.accepts hx).2
  | disconnect x =>
    obtain ⟨hx, rfl⟩ := step_disconnect hstep
    obtain ⟨ho, hl, hs⟩ := h.accepted x hx
    exact h.gave (.inr ⟨rfl, fun hc => hl (h.current x hc).1⟩) ho hs (List.erase_sublist)
      (h.clients.not_mem_erase)

theorem Tidy.all_shut_iff (h : s.Tidy) :
    (∀ x ∈ s.listening, x ∈ s.descriptors.shut) ↔ s.Kept ∧ s.server.socket = none := by
  constructor
  · refine fun hall => ⟨fun x hx => .inl (hall x hx), ?_⟩
    cases hsocket : s.server.socket with
    | none => rfl
    | some x =>
      obtain ⟨hl, hs⟩ := h.current x hsocket
      exact absurd (hall x hl) hs
  · rintro ⟨hkept, hnone⟩ x hx
    refine (hkept x hx).resolve_right fun hsocket => ?_
    rw [hnone] at hsocket
    cases hsocket

theorem kept_of_shut {x : ℕ} {opened : Finset ℕ} {clients : List ℕ} (hx : x ∉ s.listening) :
    Kept { s with descriptors := ⟨opened, s.descriptors.shut ++ [x]⟩, clients } ↔ s.Kept := by
  refine forall_congr' fun y => forall_congr' fun hy => or_congr_left ?_
  have hyx : y ≠ x := fun heq => hx (heq ▸ hy)
  simp [hyx]

/-- **A call loses a listening socket exactly if it starts a server that has one.** -/
theorem Tidy.kept_iff (h : s.Tidy) {a : Action D} (hstep : s.step config a = some s') :
    s'.Kept ↔ s.Kept ∧ s.StartsIdle a := by
  cases a with
  | start sys =>
    refine Iff.trans ?_ h.all_shut_iff
    rcases step_start hstep with rfl | ⟨x, hx, hs'⟩
    · refine forall_congr' fun y => forall_congr' fun hy => ?_
      simp
    · obtain ⟨hlistening, -, -⟩ := h.fresh hx
      have hne : ∀ y ∈ s.listening, y ≠ x := fun y hy heq => hlistening (heq ▸ hy)
      rcases hs' with rfl | rfl
      · constructor
        · intro hkept y hy
          refine (hkept y (List.mem_append_left _ hy)).resolve_right fun heq => ?_
          exact hne y hy (Option.some.inj heq).symm
        · intro hall y hy
          rcases List.mem_append.1 hy with hy | hy
          · exact .inl (hall y hy)
          · exact .inr (congrArg some (List.mem_singleton.1 hy).symm)
      · constructor
        · intro hkept y hy
          have hshut := (hkept y (List.mem_append_left _ hy)).resolve_right (by simp)
          exact (List.mem_append.1 hshut).resolve_right fun heq =>
            hne y hy (List.mem_singleton.1 heq)
        · intro hall y hy
          rcases List.mem_append.1 hy with hy | hy
          · exact .inl (List.mem_append_left _ (hall y hy))
          · exact .inl (List.mem_append_right _ hy)
  | setUserdata userdata =>
    refine Iff.trans ?_ (and_iff_left trivial).symm
    simp only [ServerRun.step] at hstep
    split_ifs at hstep <;> obtain rfl := Option.some.inj hstep <;> rfl
  | stop =>
    refine Iff.trans ?_ (and_iff_left trivial).symm
    rcases step_stop hstep with ⟨-, rfl⟩ | ⟨hnone, rfl⟩ | ⟨x, hx, rfl⟩
    · rfl
    · rfl
    · refine forall_congr' fun y => forall_congr' fun hy => ?_
      rw [hx]
      simp [eq_comm (a := x)]
  | accept e =>
    refine Iff.trans ?_ (and_iff_left trivial).symm
    rcases step_accept hstep with rfl | ⟨x, hx, rfl | rfl⟩
    · rfl
    · rfl
    · exact kept_of_shut (h.fresh hx).1
  | disconnect x =>
    refine Iff.trans ?_ (and_iff_left trivial).symm
    obtain ⟨hx, rfl⟩ := step_disconnect hstep
    exact kept_of_shut (h.accepted x hx).2.1

/-- **The sockets of a server.**  In every run of calls no socket is shut down twice, and the server
has no socket when it is not running, so that `hiw_server_delete` has none to shut down; and every
listening socket is the server's or has been shut down exactly if `hiw_server_start` was never
called while the server had one. -/
theorem kept_iff_of_run {opened : Finset ℕ} {actions : List (Action D)}
    (hrun : runLabels (step config) (new opened) actions = some s) :
    s.descriptors.shut.Nodup ∧
      (s.server.running = false → s.server.delete s.descriptors = some s.descriptors) ∧
      (s.Kept ↔ AllSteps (step config) StartsIdle (new opened) actions) := by
  have h : s.Tidy := invariant_of_runLabels (I := Tidy) (fun _ _ _ _ h hstep => h.step hstep)
    (tidy_new opened) hrun
  refine ⟨h.once, fun hrunning => ?_, ?_⟩
  · rw [HiwServer.delete, if_neg (by simp [hrunning]), h.idle hrunning]
  · have hiff := iff_allSteps_of_runLabels (I := Tidy) (Q := Kept) (G := StartsIdle)
      (fun _ _ _ h hstep => ⟨h.step hstep, h.kept_iff hstep⟩) (tidy_new opened) hrun
    rw [hiff]
    exact and_iff_right fun x hx => by cases hx

/-- A server that is started on the descriptor 3, accepts a client, and is started again and
stopped. -/
def startedTwice : List (Action Unit) :=
  [.start ⟨some 3, fun _ => true⟩, .accept (.accepts 4 true), .start ⟨some 5, fun _ => true⟩,
    .stop, .disconnect 4]

theorem kept_iff_startedTwice : ∃ s,
    runLabels (step ⟨[], 8080, 0, 0, .ipv4And6⟩) (new {0, 1, 2}) startedTwice = some s ∧
    s.descriptors.shut.Nodup ∧
      (s.server.running = false → s.server.delete s.descriptors = some s.descriptors) ∧
      (s.Kept ↔
        AllSteps (step ⟨[], 8080, 0, 0, .ipv4And6⟩) StartsIdle (new {0, 1, 2}) startedTwice) :=
  ⟨_, rfl, kept_iff_of_run (show runLabels (step ⟨[], 8080, 0, 0, .ipv4And6⟩) (new {0, 1, 2})
    startedTwice = some _ from rfl)⟩

end ServerRun

end Highway
