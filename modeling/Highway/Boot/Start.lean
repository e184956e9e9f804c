import Highway.Servlet.Filters

/-!
# Starting a servlet

A servlet is made by `hiw_servlet_new`, told its filters and its function, and started: every
thread gets a copy of the filter chain as it is then.  `hiw_boot_start` does this for an
application that has filled in a `hiw_boot_config`, with `hiw_boot_on_request` in front of the
function of the configuration; the filters of the configuration it never looks at.

What the threads call for a request is therefore the same as in a servlet that was set up by hand
only where there are no filters to be called (`HiwBootConfig.samePipeline_iff`).
-/

namespace Highway

variable {D : Type*}

/-- `hiw_servlet_thread` : its copy of the filter chain. -/
structure HiwServletThread (D : Type*) where
  filterChain : Option (List (HiwFilter D))

/-- `hiw_servlet` -/
structure HiwServlet (D : Type*) where
  filterChain : Option (List (HiwFilter D))
  servletFunc : Option (HiwServletFn D)
  numAcceptThreads : ℤ
  threads : List (HiwServletThread D)

/-- `hiw_servlet_error` -/
inductive HiwServletError where
  | success
  | invalidArgument
  | threads
  deriving DecidableEq, Repr

namespace HiwServlet

/-- `hiw_servlet_new` ; the servlet function is what the memory happens to hold. -/
def new (memory : Option (HiwServletFn D)) : HiwServlet D where
  filterChain := none
  servletFunc := memory
  numAcceptThreads := 8
  threads := []

/-- `hiw_servlet_set_filter_chain` -/
def setFilterChain (s : HiwServlet D) (filters : Option (List (HiwFilter D))) : HiwServlet D :=
  { s with filterChain := filters }

/-- `hiw_servlet_set_func` -/
def setFunc (s : HiwServlet D) (func : Option (HiwServletFn D)) : HiwServlet D :=
  { s with servletFunc := func }

/-- `hiw_servlet_thread_new` -/
def threadNew (s : HiwServlet D) : HiwServletThread D := ⟨s.filterChain⟩

/-- `hiw_servlet_start_threads` : the threads that run afterwards, and whether these are all of
them.  `starts` is the answer of `hiw_thread_start`, thread by thread. -/
def startThreads : List (HiwServletThread D) → List Bool → Bool × List (HiwServletThread D)
  | [], _ => (true, [])
  | _ :: _, [] => (false, [])
  | _ :: _, false :: _ => (false, [])
  | t :: ts, true :: starts =>
    let (ok, running) := startThreads ts starts
    (ok, t :: running)

/-- `hiw_servlet_start` with a configuration: the result, the servlet, and the threads that run,
the calling thread last. -/
def start (s : HiwServlet D) (numAcceptThreads : ℤ) (starts : List Bool) :
    HiwServletError × HiwServlet D × List (HiwServletThread D) :=
  let s := { s with numAcceptThreads }
  let s := { s with
    threads := s.threads ++ List.replicate s.numAcceptThreads.toNat s.threadNew }
  match startThreads s.threads starts with
  | (false, running) => (.threads, s, running)
  | (true, running) => (.success, s, running ++ [⟨s.filterChain⟩])

/-- What a running thread does with a request that it has read. -/
def serve (cfg : Config) (s : HiwServlet D) (t : HiwServletThread D) : HiwServletFn D :=
  HiwFilter.startFilterChain cfg t.filterChain s.servletFunc

end HiwServlet

/-- `hiw_boot_config` : what is used for a request. -/
structure HiwBootConfig (D : Type*) where
  /-- `servlet_config.num_accept_threads` -/
  numAcceptThreads : ℤ
  filters : Option (List (HiwFilter D))
  servletFunc : Option (Head → Servlet)

/-- What a start depends on: whether the server can be created and started, what `hiw_malloc`
returns for the servlet, and which threads can be started. -/
structure StartEnv (D : Type*) where
  serverNew : Bool
  serverStart : Bool
  memory : Option (HiwServletFn D)
  starts : List Bool

namespace HiwBootConfig

/-- The functions of the application behind the pointer `servlet_func`. -/
def func (cfg : Config) (config : HiwBootConfig D) : Option (HiwServletFn D) :=
  config.servletFunc.map (Servlet.fn cfg)

/-- `hiw_boot_on_request` -/
def onRequest (cfg : Config) (config : HiwBootConfig D) : HiwServletFn D :=
  HiwFilter.callServlet (config.func cfg)

/-- `hiw_boot_start` : the return code, the servlet, and the threads that run. -/
def bootStart (cfg : Config) (config : HiwBootConfig D) (env : StartEnv D) :
    ℤ × HiwServlet D × List (HiwServletThread D) :=
  let servlet := HiwServlet.new env.memory
  if !env.serverNew then (1, servlet, [])
  else if !env.serverStart then (1, servlet, [])
  else
    let servlet := servlet.setFunc (some (config.onRequest cfg))
    let (_, servlet, running) := servlet.start config.numAcceptThreads env.starts
    (0, servlet, running)

/-- A servlet that is set up with the filters and the function of the configuration. -/
def handBuilt (cfg : Config) (config : HiwBootConfig D) (env : StartEnv D) :
    HiwServletError × HiwServlet D × List (HiwServletThread D) :=
  (((HiwServlet.new env.memory).setFilterChain config.filters).setFunc (config.func cfg)).start
    config.numAcceptThreads env.starts

/-- The functions called for a request. -/
def functions (o : Outcome D) : List (Call D) := o.calls.filter Call.isFunction

/-- Whatever threads run, they call the same functions for a request. -/
def SamePipeline (cfg : Config) (config : HiwBootConfig D) : Prop :=
  ∀ env env' : StartEnv D,
    ∀ t ∈ (config.bootStart cfg env).2.2, ∀ t' ∈ (config.handBuilt cfg env').2.2,
      ∀ req r, functions ((config.bootStart cfg env).2.1.serve cfg t req r) =
        functions ((config.handBuilt cfg env').2.1.serve cfg t' req r)

/-- The filters are NULL, or an array in front of an entry that ends it. -/
def Terminated (filters : Option (List (HiwFilter D))) : Prop :=
  ∀ array, filters = some array →
    ∃ fs data, array = HiwFilter.terminated fs data ∧ ∀ e ∈ fs, e.func.isSome = true

end HiwBootConfig

/-! ### The threads -/

namespace HiwServlet

variable {s : HiwServlet D} {t : HiwServletThread D} {n : ℤ} {starts : List Bool}

theorem mem_of_startThreads {ts : List (HiwServletThread D)}
    (h : t ∈ (startThreads ts starts).2) : t ∈ ts := by
  induction ts generalizing starts with
  | nil => cases h
  | cons u ts ih =>
    match starts, h with
    | true :: starts, h =>
      rcases List.mem_cons.1 h with rfl | h
      · exact List.mem_cons_self
      · exact List.mem_cons_of_mem _ (ih h)

theorem startThreads_all (t : HiwServletThread D) (k : ℕ) :
    startThreads (List.replicate k t) (List.replicate k true) = (true, List.replicate k t) := by
  induction k with
  | zero => rfl
  | succ k ih =>
    rw [List.replicate_succ, List.replicate_succ, startThreads, ih]

theorem servletFunc_start (s : HiwServlet D) (n : ℤ) (starts : List Bool) :
    (s.start n starts).2.1.servletFunc = s.servletFunc := by
  unfold start
  dsimp only
  split <;> rfl

theorem running_start (hs : s.threads = []) (n : ℤ) (starts : List Bool) :
    (s.start n starts).2.2 =
      match startThreads (List.replicate n.toNat s.threadNew) starts with
      | (false, running) => running
      | (true, running) => running ++ [s.threadNew] := by
  simp only [start, hs, List.nil_append, threadNew]
  rcases startThreads (List.replicate n.toNat ⟨s.filterChain⟩) starts with ⟨_ | _, running⟩
  · rfl
  · rfl

/-- **Every thread has a copy of the servlet's filter chain.** -/
theorem filterChain_of_mem (hs : s.threads = []) (h : t ∈ (s.start n starts).2.2) :
    t.filterChain = s.filterChain := by
  have hrun : ∀ u ∈ (startThreads (List.replicate n.toNat s.threadNew) starts).2,
      u = s.threadNew := fun u hu => (List.mem_replicate.1 (mem_of_startThreads hu)).2
  rw [running_start hs] at h
  have heq : t = s.threadNew := by
    split at h
    next running heq =>
      rw [heq] at hrun
      exact hrun t h
    next running heq =>
      rw [heq] at hrun
      rcases List.mem_append.1 h with h | h
      · exact hrun t h
      · exact List.mem_singleton.1 h
  rw [heq]
  rfl

theorem exists_mem_start (hs : s.threads = []) (n : ℤ) :
    ∃ t, t ∈ (s.start n (List.replicate n.toNat true)).2.2 := by
  refine ⟨s.threadNew, ?_⟩
  rw [running_start hs, startThreads_all]
  exact List.mem_append_right _ (List.mem_singleton_self _)

end HiwServlet

/-! ### The two ways to start -/

namespace HiwBootConfig

variable {cfg : Config} {config : HiwBootConfig D} {env : StartEnv D} {t : HiwServletThread D}

/-- A server and threads that can be started. -/
def able (n : ℤ) : StartEnv D := ⟨true, true, none, List.replicate n.toNat true⟩

theorem serve_bootStart (h : t ∈ (config.bootStart cfg env).2.2) :
    (config.bootStart cfg env).2.1.serve cfg t = config.onRequest cfg := by
  unfold bootStart at h ⊢
  dsimp only at h ⊢
  split at h
  · cases h
  split at h
  · cases h
  rw [if_neg ‹_›, if_neg ‹_›]
  unfold HiwServlet.serve
  rw [HiwServlet.filterChain_of_mem rfl h, HiwServlet.servletFunc_start]
  rfl

theorem serve_handBuilt (h : t ∈ (config.handBuilt cfg env).2.2) :
    (config.handBuilt cfg env).2.1.serve cfg t =
      HiwFilter.startFilterChain cfg config.filters (config.func cfg) := by
  unfold HiwServlet.serve handBuilt at *
  rw [HiwServlet.filterChain_of_mem rfl h, HiwServlet.servletFunc_start]
  rfl

theorem exists_mem_bootStart (cfg : Config) (config : HiwBootConfig D) :
    ∃ env t, t ∈ (config.bootStart cfg env).2.2 :=
  ⟨able config.numAcceptThreads, HiwServlet.exists_mem_start rfl config.numAcceptThreads⟩

theorem exists_mem_handBuilt (cfg : Config) (config : HiwBootConfig D) :
    ∃ env t, t ∈ (config.handBuilt cfg env).2.2 :=
  ⟨able config.numAcceptThreads, HiwServlet.exists_mem_start rfl config.numAcceptThreads⟩

/-- What is compared are `hiw_boot_on_request` and the filter chain. -/
theorem samePipeline_iff_forall : SamePipeline cfg config ↔ ∀ req r,
    functions (config.onRequest cfg req r) =
      functions (HiwFilter.startFilterChain cfg config.filters (config.func cfg) req r) := by
  constructor
  · intro h req r
    obtain ⟨env, t, ht⟩ := exists_mem_bootStart cfg config
    obtain ⟨env', t', ht'⟩ := exists_mem_handBuilt cfg config
    have hsame := h env env' t ht t' ht' req r
    rwa [serve_bootStart ht, serve_handBuilt ht'] at hsame
  · intro h env env' t ht t' ht' req r
    rw [serve_bootStart ht, serve_handBuilt ht']
    exact h req r

theorem functions_onRequest (req : HiwRequest) (r : HiwResponse) :
    functions (config.onRequest cfg req r) =
      [if config.servletFunc.isSome then .servlet else .null] := by
  unfold onRequest func
  cases config.servletFunc <;> rfl

theorem functions_none (req : HiwRequest) (r : HiwResponse) :
    functions (HiwFilter.startFilterChain cfg none (config.func cfg) req r) =
      if config.servletFunc.isSome then [.servlet] else [] := by
  unfold func
  cases config.servletFunc <;> rfl

/-- The entry that ends an array is called like a filter. -/
theorem functions_nil (data : D) (req : HiwRequest) (r : HiwResponse) :
    functions (HiwFilter.startFilterChain cfg (some (HiwFilter.terminated [] data))
      (config.func cfg) req r) = [.null] := rfl

theorem head_functions_cons (cfg : Config) (config : HiwBootConfig D) {e : HiwFilter D}
    (he : e.func.isSome = true) (es : List (HiwFilter D)) (data : D) (req : HiwRequest)
    (r : HiwResponse) :
    (functions (HiwFilter.startFilterChain cfg (some (HiwFilter.terminated (e :: es) data))
      (config.func cfg) req r)).head? = some (.filter 0) := by
  obtain ⟨f, hf⟩ := Option.isSome_iff_exists.1 he
  simp only [HiwFilter.terminated, List.cons_append, HiwFilter.startFilterChain, hf]
  rfl

/-- Where both call the same functions, no filter is there to be left out. -/
theorem SamePipeline.without_filters (h : Terminated config.filters)
    (hsame : SamePipeline cfg config) :
    (config.filters = none ∧ config.servletFunc.isSome = true) ∨
      (config.servletFunc = none ∧
        ∃ data, config.filters = some (HiwFilter.terminated [] data)) := by
  rw [samePipeline_iff_forall] at hsame
  simp only [functions_onRequest] at hsame
  have hreq := hsame (.init cfg fun _ => 0) (.start cfg (fun _ => 0) ⟨[], [], []⟩ false)
  match hfilters : config.filters with
  | none =>
    rw [hfilters, functions_none] at hreq
    refine .inl ⟨rfl, ?_⟩
    by_contra hnone
    simp [hnone] at hreq
  | some array =>
    obtain ⟨fs, data, rfl, hfs⟩ := h array hfilters
    rw [hfilters] at hreq
    cases fs with
    | nil =>
      refine .inr ⟨?_, data, rfl⟩
      rw [functions_nil] at hreq
      cases hfunc : config.servletFunc with
      | none => rfl
      | some f => simp [hfunc] at hreq
    | cons e es =>
      -- a filter in front that only one of the two calls
      have hhead := head_functions_cons cfg config (hfs e List.mem_cons_self) es data
        (.init cfg fun _ => 0) (.start cfg (fun _ => 0) ⟨[], [], []⟩ false)
      rw [← hreq] at hhead
      split at hhead <;> cases hhead

/-- **When a boot application runs its pipeline.**  Exactly if it has no filters, but a servlet
function; where there is no function at all, both call the NULL in its place. -/
theorem samePipeline_iff (h : Terminated config.filters) : SamePipeline cfg config ↔
    (config.filters = none ∧ config.servletFunc.isSome = true) ∨
      (config.servletFunc = none ∧
        ∃ data, config.filters = some (HiwFilter.terminated [] data)) := by
  refine ⟨SamePipeline.without_filters h, ?_⟩
  rw [samePipeline_iff_forall]
  simp only [functions_onRequest]
  rintro (⟨hnone, hfunc⟩ | ⟨hnone, data, hfilters⟩) req r
  · rw [hnone, functions_none, if_pos hfunc, if_pos hfunc]
  · rw [hfilters, functions_nil, hnone]
    rfl

/-- A servlet function alone. -/
theorem samePipeline_servlet : SamePipeline .default
    (⟨8, none, some fun _ => .done⟩ : HiwBootConfig ℕ) :=
  (samePipeline_iff (by intro array harray; cases harray)).2 (.inl ⟨rfl, rfl⟩)

/-- A filter that answers the request itself, in front of a servlet function. -/
theorem not_samePipeline : ¬ ∀ (cfg : Config) (config : HiwBootConfig ℕ),
    Terminated config.filters → SamePipeline cfg config := by
  intro hall
  let deny : HiwFilter ℕ := ⟨some fun _ => .respond (.setStatusCode 403) fun _ => .done, 0⟩
  have hterm : Terminated (some (HiwFilter.terminated [deny] 0)) := by
    rintro array ⟨⟩
    exact ⟨[deny], 0, rfl, List.forall_mem_singleton.2 rfl⟩
  rcases (hall .default ⟨8, _, some fun _ => .done⟩ hterm).without_filters hterm with
    ⟨hnone, -⟩ | ⟨hnone, -⟩
  · cases hnone
  · cases hnone

end HiwBootConfig

end Highway
