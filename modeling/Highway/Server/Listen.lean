import Highway.Server.Descriptor
import Highway.Std.Buffer

/-!
# The listening socket

`hiw_socket_listen` opens a socket, sets its options, binds it and listens.  The first call that
fails decides its error (`Descriptors.hiwSocketListen_eq`), and an IPv4 address that does not fit
into `char tmp[INET_ADDRSTRLEN]` is terminated behind the array.
-/

namespace Highway

/-- `hiw_socket_ip_version` -/
inductive HiwSocketIpVersion where
  | ipv4
  | ipv6
  | ipv4And6
  deriving DecidableEq, Repr

/-- `hiw_socket_error` -/
inductive HiwSocketError where
  | success
  | create
  | config
  | bind
  | listen
  | accept
  deriving DecidableEq, Repr

/-- `hiw_socket_config` -/
structure HiwSocketConfig where
  address : Bytes
  port : ℕ
  readTimeout : ℕ
  writeTimeout : ℕ
  ipVersion : HiwSocketIpVersion

/-- The value that an option is set to. -/
inductive OptionValue where
  | int (value : ℕ)
  /-- `struct linger` -/
  | linger (onoff linger : ℕ)
  /-- `struct timeval` -/
  | timeval (sec usec : ℕ)
  deriving DecidableEq, Repr

/-- The address that a socket is bound to. -/
inductive SocketAddress where
  /-- `INADDR_ANY`, or the address that `inet_pton` reads from a text. -/
  | inet (address : Option Bytes) (port : ℕ)
  /-- `in6addr_any` -/
  | inet6 (port : ℕ)
  deriving DecidableEq, Repr

/-- The calls that are made for a new socket. -/
inductive SocketCall where
  | reuseaddr (value : OptionValue)
  | v6only (value : OptionValue)
  | reuseport (value : OptionValue)
  | nodelay (value : OptionValue)
  | linger (value : OptionValue)
  | rcvtimeo (value : OptionValue)
  | sndtimeo (value : OptionValue)
  | inetPton (text : Bytes)
  | bind (address : SocketAddress)
  | listen (backlog : ℕ)
  deriving DecidableEq, Repr

/-- What the system answers. -/
structure SocketSystem where
  /-- The descriptor that `socket` opens, unless it fails. -/
  socket : Option ℕ
  /-- Which of the calls succeed. -/
  ok : SocketCall → Bool

/-- `INET_ADDRSTRLEN` -/
def inetAddrstrlen : ℕ := 16

/-- `struct timeval` for some milliseconds. -/
def timeval (ms : ℕ) : OptionValue := .timeval (ms / 1000) (ms % 1000 * 1000)

/-- `hiw_socket_set_timeout` -/
def hiwSocketSetTimeout (ok : SocketCall → Bool) (readTimeout writeTimeout : ℕ) : HiwSocketError :=
  if !ok (.rcvtimeo (timeval readTimeout)) then .config
  else if !ok (.sndtimeo (timeval writeTimeout)) then .config
  else .success

/-- `hiw_internal_server_bind_ipv4` ; `none` if it writes behind `tmp`. -/
def hiwInternalServerBindIpv4 (ok : SocketCall → Bool) (config : HiwSocketConfig) : Option Bool :=
  if config.address.length = 0 then some (ok (.bind (.inet none config.port)))
  else
    -- where `hiw_std_copy` ends, and the terminator is put
    let terminator := min config.address.length inetAddrstrlen
    if terminator < inetAddrstrlen then
      let text := config.address.takeWhile (· ≠ 0)
      if !ok (.inetPton text) then some false
      else some (ok (.bind (.inet (some text) config.port)))
    else none

/-- `hiw_internal_server_bind_ipv6` -/
def hiwInternalServerBindIpv6 (ok : SocketCall → Bool) (config : HiwSocketConfig) : Bool :=
  if 0 < config.address.length then false else ok (.bind (.inet6 config.port))

/-- How `hiw_socket_listen` ends, with a socket whose options are set. -/
def hiwSocketBindAndListen (ok : SocketCall → Bool) (config : HiwSocketConfig) :
    Option HiwSocketError :=
  let bound :=
    match config.ipVersion with
    | .ipv4 => hiwInternalServerBindIpv4 ok config
    | .ipv4And6 | .ipv6 => some (hiwInternalServerBindIpv6 ok config)
  bound.map fun bound =>
    if !bound then .bind
    else if !ok (.listen 500) then .listen
    else .success

/-- `hiw_socket_listen` with a socket that has been created. -/
def hiwSocketListenOn (ok : SocketCall → Bool) (config : HiwSocketConfig) :
    Option HiwSocketError :=
  if !ok (.reuseaddr (.int 1)) then some .config
  else if config.ipVersion = .ipv4And6 ∧ !ok (.v6only (.int 0)) then some .config
  else if !ok (.reuseport (.int 1)) then some .config
  else if !ok (.nodelay (.int 1)) then some .config
  else if !ok (.linger (.linger 0 0)) then some .config
  else
    let err := hiwSocketSetTimeout ok config.readTimeout config.writeTimeout
    if err ≠ .success then some err else hiwSocketBindAndListen ok config

/-- `hiw_socket_listen` : the error, and the socket unless it is `INVALID_SOCKET`; `none` if it
writes behind `tmp`, or if the descriptor is open already. -/
def Descriptors.hiwSocketListen (t : Descriptors) (config : HiwSocketConfig) (sys : SocketSystem) :
    Option (HiwSocketError × Option ℕ × Descriptors) :=
  match sys.socket with
  | none => some (.create, none, t)
  | some socket =>
    if socket ∈ t.opened then none
    else
      let t := { t with opened := insert socket t.opened }
      (hiwSocketListenOn sys.ok config).map fun err =>
        if err = .success then (err, some socket, t) else (err, none, t.hiwSocketClose socket)

/-! ### The first call that fails -/

/-- What is done for a new socket, in order: a call, or nothing where the configuration is not
supported, and the error if it fails. -/
def HiwSocketConfig.optionSteps (config : HiwSocketConfig) :
    List (Option SocketCall × HiwSocketError) :=
  [(some (.reuseaddr (.int 1)), .config)] ++
    (if config.ipVersion = .ipv4And6 then [(some (.v6only (.int 0)), .config)] else []) ++
    [(some (.reuseport (.int 1)), .config), (some (.nodelay (.int 1)), .config),
      (some (.linger (.linger 0 0)), .config),
      (some (.rcvtimeo (timeval config.readTimeout)), .config),
      (some (.sndtimeo (timeval config.writeTimeout)), .config)]

/-- The binding of the socket. -/
def HiwSocketConfig.bindSteps (config : HiwSocketConfig) :
    List (Option SocketCall × HiwSocketError) :=
  let text := config.address.takeWhile (· ≠ 0)
  match config.ipVersion with
  | .ipv4 =>
    if config.address = [] then [(some (.bind (.inet none config.port)), .bind)]
    else [(some (.inetPton text), .bind), (some (.bind (.inet (some text) config.port)), .bind)]
  | .ipv4And6 | .ipv6 =>
    if config.address = [] then [(some (.bind (.inet6 config.port)), .bind)] else [(none, .bind)]

/-- The error of the first step that fails. -/
def firstError (ok : SocketCall → Bool) (steps : List (Option SocketCall × HiwSocketError)) :
    HiwSocketError :=
  match steps.find? fun p => !p.1.any ok with
  | none => .success
  | some p => p.2

/-- The address does not fit into `tmp`. -/
def HiwSocketConfig.Overflows (config : HiwSocketConfig) : Prop :=
  config.ipVersion = .ipv4 ∧ inetAddrstrlen ≤ config.address.length

instance (config : HiwSocketConfig) : Decidable config.Overflows :=
  inferInstanceAs (Decidable (_ ∧ _))

section

variable {ok : SocketCall → Bool} {config : HiwSocketConfig}

theorem firstError_cons (p : Option SocketCall × HiwSocketError)
    (steps : List (Option SocketCall × HiwSocketError)) :
    firstError ok (p :: steps) = if p.1.any ok then firstError ok steps else p.2 := by
  unfold firstError
  rw [List.find?_cons]
  cases p.1.any ok <;> rfl

theorem firstError_append (steps steps' : List (Option SocketCall × HiwSocketError))
    (h : ∀ p ∈ steps, p.2 ≠ .success) :
    firstError ok (steps ++ steps') =
      if firstError ok steps = .success then firstError ok steps' else firstError ok steps := by
  induction steps with
  | nil => rfl
  | cons p steps ih =>
    obtain ⟨hp, hsteps⟩ := List.forall_mem_cons.1 h
    rw [List.cons_append, firstError_cons, firstError_cons]
    split_ifs with hok hrest
    · rw [ih hsteps, if_pos hrest]
    · rw [ih hsteps, if_neg hrest]
    · rfl

theorem firstError_of_forall {e : HiwSocketError}
    {steps : List (Option SocketCall × HiwSocketError)} (h : ∀ p ∈ steps, p.2 = e) :
    firstError ok steps = .success ∨ firstError ok steps = e := by
  unfold firstError
  split
  next => exact .inl rfl
  next p hp => exact .inr (h p (List.mem_of_find?_eq_some hp))

theorem config_of_mem_optionSteps : ∀ p ∈ config.optionSteps, p.2 = .config := by
  unfold HiwSocketConfig.optionSteps
  split_ifs <;> simp

theorem bind_of_mem_bindSteps : ∀ p ∈ config.bindSteps, p.2 = .bind := by
  unfold HiwSocketConfig.bindSteps
  cases config.ipVersion <;> dsimp only <;> split_ifs <;> simp

theorem firstError_optionSteps : firstError ok config.optionSteps =
    if !ok (.reuseaddr (.int 1)) then .config
    else if config.ipVersion = .ipv4And6 ∧ !ok (.v6only (.int 0)) then .config
    else if !ok (.reuseport (.int 1)) then .config
    else if !ok (.nodelay (.int 1)) then .config
    else if !ok (.linger (.linger 0 0)) then .config
    else hiwSocketSetTimeout ok config.readTimeout config.writeTimeout := by
  have hnil : firstError ok [] = .success := rfl
  unfold HiwSocketConfig.optionSteps hiwSocketSetTimeout
  split_ifs <;> simp_all [firstError_cons]

theorem bindIpv4_eq (hversion : config.ipVersion = .ipv4)
    (hfits : config.address.length < inetAddrstrlen) : hiwInternalServerBindIpv4 ok config =
      some (decide (firstError ok config.bindSteps = .success)) := by
  have hnil : firstError ok [] = .success := rfl
  simp only [hiwInternalServerBindIpv4, HiwSocketConfig.bindSteps, hversion,
    List.length_eq_zero_iff, min_eq_left hfits.le, hfits, if_true]
  by_cases haddress : config.address = []
  · simp only [haddress, if_true, firstError_cons, Option.any_some, hnil]
    split_ifs with hok <;> simp [hok]
  · simp only [haddress, if_false, firstError_cons, Option.any_some, hnil]
    split_ifs <;> simp_all

theorem bindIpv4_eq_none (hlength : inetAddrstrlen ≤ config.address.length) :
    hiwInternalServerBindIpv4 ok config = none := by
  have hpos : config.address.length ≠ 0 := by
    have : inetAddrstrlen = 16 := rfl
    omega
  simp [hiwInternalServerBindIpv4, hpos, min_eq_right hlength]

theorem bindIpv6_eq (hversion : config.ipVersion ≠ .ipv4) : hiwInternalServerBindIpv6 ok config =
    decide (firstError ok config.bindSteps = .success) := by
  have hnil : firstError ok [] = .success := rfl
  have hsteps : config.bindSteps =
      if config.address = [] then [(some (.bind (.inet6 config.port)), .bind)]
      else [(none, .bind)] := by
    unfold HiwSocketConfig.bindSteps
    cases hv : config.ipVersion <;> simp_all
  rw [hsteps, hiwInternalServerBindIpv6]
  by_cases haddress : config.address = []
  · simp only [haddress, List.length_nil, Nat.lt_irrefl, if_false, if_true, firstError_cons,
      Option.any_some, hnil]
    split_ifs with hok <;> simp [hok]
  · have hpos : 0 < config.address.length := List.length_pos_iff.2 haddress
    simp [haddress, hpos, firstError_cons]

theorem bindAndListen_eq (hfits : ¬ config.Overflows) : hiwSocketBindAndListen ok config =
    some (if firstError ok config.bindSteps ≠ .success then .bind
      else if !ok (.listen 500) then .listen else .success) := by
  have hbound : (match config.ipVersion with
      | .ipv4 => hiwInternalServerBindIpv4 ok config
      | .ipv4And6 | .ipv6 => some (hiwInternalServerBindIpv6 ok config)) =
        some (decide (firstError ok config.bindSteps = .success)) := by
    cases hversion : config.ipVersion with
    | ipv4 => exact bindIpv4_eq hversion (Nat.lt_of_not_le fun hle => hfits ⟨hversion, hle⟩)
    | ipv4And6 | ipv6 => exact congrArg some (bindIpv6_eq (by simp [hversion]))
  dsimp only [hiwSocketBindAndListen]
  rw [hbound, Option.map_some]
  simp

theorem hiwSocketListenOn_of_options : hiwSocketListenOn ok config =
    if firstError ok config.optionSteps = .success then hiwSocketBindAndListen ok config
    else some (firstError ok config.optionSteps) := by
  rw [firstError_optionSteps]
  dsimp only [hiwSocketListenOn]
  split_ifs <;> simp_all

/-- **The first call that fails decides the error**, unless the socket is bound to an address that
does not fit. -/
theorem hiwSocketListenOn_eq : hiwSocketListenOn ok config =
    if config.Overflows ∧ firstError ok config.optionSteps = .success then none
    else some (firstError ok (config.optionSteps ++ (config.bindSteps ++
      [(some (.listen 500), .listen)]))) := by
  have hoptions : ∀ p ∈ config.optionSteps, p.2 ≠ .success := fun p hp => by
    simp [config_of_mem_optionSteps p hp]
  have hbinds : ∀ p ∈ config.bindSteps, p.2 ≠ .success := fun p hp => by
    simp [bind_of_mem_bindSteps p hp]
  rw [hiwSocketListenOn_of_options, firstError_append _ _ hoptions, firstError_append _ _ hbinds]
  by_cases hopts : firstError ok config.optionSteps = .success
  · rw [if_pos hopts, if_pos hopts]
    by_cases hfits : config.Overflows
    · rw [if_pos ⟨hfits, hopts⟩]
      simp only [hiwSocketBindAndListen, hfits.1, bindIpv4_eq_none hfits.2, Option.map_none]
    · rw [if_neg fun h => hfits h.1, bindAndListen_eq hfits]
      have hlisten : firstError ok [(some (.listen 500), .listen)] =
          if ok (.listen 500) then .success else .listen := firstError_cons _ _
      rw [hlisten]
      have hbind : firstError ok config.bindSteps = .success ∨
          firstError ok config.bindSteps = .bind := firstError_of_forall bind_of_mem_bindSteps
      rcases hbind with hok | hbind
      · cases hlast : ok (.listen 500) <;> simp [hok]
      · simp [hbind]
  · rw [if_neg hopts, if_neg fun h => hopts h.2, if_neg hopts]

/-- `hiw_socket_listen` : what comes of it. -/
theorem Descriptors.hiwSocketListen_eq (t : Descriptors) (config : HiwSocketConfig)
    (sys : SocketSystem) {socket : ℕ} (hsocket : sys.socket = some socket)
    (hnew : socket ∉ t.opened) :
    t.hiwSocketListen config sys =
      if config.Overflows ∧ firstError sys.ok config.optionSteps = .success then none
      else
        let err := firstError sys.ok (config.optionSteps ++ (config.bindSteps ++
          [(some (.listen 500), .listen)]))
        let t := { t with opened := insert socket t.opened }
        if err = .success then some (.success, some socket, t)
        else some (err, none, t.hiwSocketClose socket) := by
  unfold hiwSocketListen
  rw [hsocket]
  dsimp only
  rw [if_neg hnew, hiwSocketListenOn_eq]
  split_ifs with hoverflow herr
  · rfl
  · simp [herr]
  · simp [herr]

/-- An IPv4 address that fits, on a port that is in use. -/
theorem hiwSocketListen_inUse :
    Descriptors.hiwSocketListen ⟨{0, 1, 2}, []⟩ ⟨ascii "127.0.0.1", 8080, 0, 0, .ipv4⟩
      ⟨some 3, fun c => c ≠ .bind (.inet (some (ascii "127.0.0.1")) 8080)⟩ =
        some (.bind, none, ⟨{3, 0, 1, 2}, [3]⟩) :=
  (Descriptors.hiwSocketListen_eq _ _ _ rfl (by decide)).trans rfl

end

end Highway
