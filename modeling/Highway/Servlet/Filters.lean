import Highway.Servlet.Accounting
import Highway.Servlet.Loop

/-!
# The filter chain

`hiw_servlet_start_filter_chain` calls the first entry of the filter array itself; every other
entry is called by `hiw_filter_chain_next`, from inside of the filter in front of it.  What a
filter does with a request is a program (`Callback`) that may call `hiw_filter_chain_next` and
`hiw_filter_get_data`; the calls of filters, of the servlet function and of NULL are recorded.

`hiw_filter_chain_next` looks for the entry that ends the array before it calls one, but
`hiw_servlet_start_filter_chain` does not, and neither of the two looks at the servlet function at
the end of a chain.  So the filters are called in order exactly where the array holds more than
the entry that ends it, and the servlet function is set or not reached
(`HiwFilter.inOrder_iff`).
-/

namespace Highway

open Lib

/-- What a filter function does with a request. -/
inductive Callback (D : Type*) where
  /-- Return. -/
  | done
  /-- Call `hiw_request_recv`, and go on with its result and the bytes of `dest`. -/
  | recv (dest : Bytes) (n : ℤ) (k : ℤ → Bytes → Callback D)
  /-- Call an operation on the response, and go on with its result. -/
  | respond (op : HiwResponse.Op) (k : Bool → Callback D)
  /-- Call `hiw_filter_get_data`, and go on with what it returns. -/
  | getData (k : D → Callback D)
  /-- Call `hiw_filter_chain_next`. -/
  | next (k : Callback D)

/-- `hiw_filter`.  A function is given the request, which it sees through its head, and nothing
else of it but the bytes of the body that it receives; `none` is NULL. -/
structure HiwFilter (D : Type*) where
  func : Option (Head → Callback D)
  data : D

/-- The calls that are recorded. -/
inductive Call (D : Type*) where
  /-- The function of the entry with this index. -/
  | filter (i : ℕ)
  /-- `hiw_filter_get_data` inside of that function, with its result. -/
  | getData (i : ℕ) (data : D)
  /-- The servlet function. -/
  | servlet
  /-- A function that is NULL. -/
  | null
  deriving DecidableEq

/-- The calls made for a request, and what becomes of it; `none` when the behaviour is not
defined. -/
structure Outcome (D : Type*) where
  calls : List (Call D)
  state : Option (HiwRequest × HiwResponse)

/-- `hiw_servlet_fn`, and what else is called with a request and a response. -/
abbrev HiwServletFn (D : Type*) := HiwRequest → HiwResponse → Outcome D

variable {D : Type*}

namespace Outcome

/-- The same, behind other calls. -/
def after (o : Outcome D) (calls : List (Call D)) : Outcome D := ⟨calls ++ o.calls, o.state⟩

/-- Go on with the request. -/
def andThen (o : Outcome D) (f : HiwServletFn D) : Outcome D :=
  match o.state with
  | none => o
  | some (req, r) => (f req r).after o.calls

end Outcome

namespace Callback

/-- Run the function of the entry with index `i`; `onNext` is what `hiw_filter_chain_next`
does. -/
def run (cfg : Config) (i : ℕ) (data : D) (onNext : HiwServletFn D) :
    Callback D → HiwServletFn D
  | done, req, r => ⟨[], some (req, r)⟩
  | recv dest n k, req, r =>
    let (result, dest, req, client) := req.recv r.client dest n
    (k result dest).run cfg i data onNext req { r with client }
  | respond op k, req, r =>
    match r.perform cfg op with
    | none => ⟨[], none⟩
    | some (ok, r) => (k ok).run cfg i data onNext req r
  | getData k, req, r => ((k data).run cfg i data onNext req r).after [.getData i data]
  | next k, req, r => (onNext req r).andThen (k.run cfg i data onNext)

/-- The request and the response when the function calls `hiw_filter_chain_next`, if it does. -/
def reaches (cfg : Config) (data : D) :
    Callback D → HiwRequest → HiwResponse → Option (HiwRequest × HiwResponse)
  | done, _, _ => none
  | recv dest n k, req, r =>
    let (result, dest, req, client) := req.recv r.client dest n
    (k result dest).reaches cfg data req { r with client }
  | respond op k, req, r =>
    match r.perform cfg op with
    | none => none
    | some (ok, r) => (k ok).reaches cfg data req r
  | getData k, req, r => (k data).reaches cfg data req r
  | next _, req, r => some (req, r)

/-- The function does not call `hiw_filter_chain_next`. -/
def NoNext : Callback D → Prop
  | done => True
  | recv _ _ k => ∀ result dest, (k result dest).NoNext
  | respond _ k => ∀ ok, (k ok).NoNext
  | getData k => ∀ data, (k data).NoNext
  | next _ => False

/-- The function calls `hiw_filter_chain_next` at most once. -/
def NextAtMostOnce : Callback D → Prop
  | done => True
  | recv _ _ k => ∀ result dest, (k result dest).NextAtMostOnce
  | respond _ k => ∀ ok, (k ok).NextAtMostOnce
  | getData k => ∀ data, (k data).NextAtMostOnce
  | next k => k.NoNext

end Callback

/-- A servlet function of the application. -/
def Servlet.fn (cfg : Config) (servlet : Head → Servlet) : HiwServletFn D := fun req r =>
  ⟨[.servlet], (servlet req.head).run cfg req r⟩

namespace HiwFilter

/-- A call of a function pointer for a servlet function. -/
def callServlet : Option (HiwServletFn D) → HiwServletFn D
  | none, _, _ => ⟨[.null], none⟩
  | some f, req, r => f req r

/-- A call of the function `f` of the entry with index `i`. -/
def invoke (cfg : Config) (i : ℕ) (f : Head → Callback D) (data : D) (onNext : HiwServletFn D) :
    HiwServletFn D := fun req r =>
  ((f req.head).run cfg i data onNext req r).after [.filter i]

/-- `hiw_filter_chain_next`, where the array goes on with the given entries behind the filter that
calls it, the first of them at index `i`. -/
def chainNext (cfg : Config) (servletFunc : Option (HiwServletFn D)) :
    ℕ → List (HiwFilter D) → HiwServletFn D
  | _, [] => fun _ _ => ⟨[], none⟩
  | i, next :: rest =>
    match next.func with
    | some f => invoke cfg i f next.data (chainNext cfg servletFunc (i + 1) rest)
    | none => callServlet servletFunc

/-- The calls of `hiw_servlet_start_filter_chain` for a request that was read, with the array of
the thread's filter chain (`none` is NULL) and the servlet function. -/
def startFilterChain (cfg : Config) (filters : Option (List (HiwFilter D)))
    (servletFunc : Option (HiwServletFn D)) : HiwServletFn D :=
  match filters with
  | some [] => fun _ _ => ⟨[], none⟩
  | some (first :: rest) =>
    -- the function of the first entry is called as it is
    match first.func with
    | some f => invoke cfg 0 f first.data (chainNext cfg servletFunc 1 rest)
    | none => fun _ _ => ⟨[.null], none⟩
  | none =>
    match servletFunc with
    | some f => f
    | none => fun req r => ⟨[], some (req, r)⟩

/-- An array of filters, with the entry that ends it. -/
def terminated (fs : List (HiwFilter D)) (data : D) : List (HiwFilter D) := fs ++ [⟨none, data⟩]

/-- The request and the response when the filter calls `hiw_filter_chain_next`, if it does. -/
def reaches (cfg : Config) (f : HiwFilter D) (req : HiwRequest) (r : HiwResponse) :
    Option (HiwRequest × HiwResponse) :=
  f.func.bind fun func => (func req.head).reaches cfg f.data req r

/-- Every filter calls `hiw_filter_chain_next`. -/
def AllCallNext (cfg : Config) : List (HiwFilter D) → HiwRequest → HiwResponse → Prop
  | [], _, _ => True
  | f :: fs, req, r => ∃ req' r', f.reaches cfg req r = some (req', r') ∧ AllCallNext cfg fs req' r'

/-- The functions that are to be called: the filters up to the first that does not call
`hiw_filter_chain_next`, or all of them and then the servlet function. -/
def inTurn (cfg : Config) : ℕ → List (HiwFilter D) → HiwRequest → HiwResponse → List (Call D)
  | _, [], _, _ => [.servlet]
  | i, f :: fs, req, r =>
    .filter i ::
      match f.reaches cfg req r with
      | none => []
      | some (req', r') => inTurn cfg (i + 1) fs req' r'

end HiwFilter

/-- The call is one of a function given by the application, or of NULL. -/
def Call.isFunction : Call D → Bool
  | .getData _ _ => false
  | _ => true

namespace HiwFilter

/-- The filters of the array are called in order, and each with its own data. -/
structure InOrder (cfg : Config) (fs : List (HiwFilter D)) (data : D)
    (servletFunc : Option (Head → Servlet)) (req : HiwRequest) (r : HiwResponse) : Prop where
  notNull : .null ∉ (startFilterChain cfg (some (terminated fs data))
    (servletFunc.map (Servlet.fn cfg)) req r).calls
  order : (startFilterChain cfg (some (terminated fs data))
    (servletFunc.map (Servlet.fn cfg)) req r).calls.filter Call.isFunction = inTurn cfg 0 fs req r
  ownData : ∀ i d, .getData i d ∈ (startFilterChain cfg (some (terminated fs data))
    (servletFunc.map (Servlet.fn cfg)) req r).calls → fs[i]?.map HiwFilter.data = some d

end HiwFilter

/-! ### The calls of one filter -/

@[simp] theorem Outcome.calls_after (o : Outcome D) (calls : List (Call D)) :
    (o.after calls).calls = calls ++ o.calls := rfl

namespace Callback

/-- Without a call of `hiw_filter_chain_next`, only `hiw_filter_get_data` is recorded. -/
theorem NoNext.calls {c : Callback D} (h : c.NoNext) (cfg : Config) (i : ℕ) (data : D)
    (onNext : HiwServletFn D) (req : HiwRequest) (r : HiwResponse) :
    ∀ e ∈ (c.run cfg i data onNext req r).calls, e = .getData i data := by
  induction c generalizing req r with
  | done => exact List.forall_mem_nil _
  | recv dest n k ih => exact ih _ _ (h _ _) _ _
  | respond op k ih =>
    unfold run
    split
    · exact List.forall_mem_nil _
    · exact ih _ (h _) _ _
  | getData k ih =>
    intro e he
    rcases List.mem_cons.1 he with rfl | he
    · rfl
    · exact ih data (h data) req r e he
  | next k ih => exact h.elim

/-- **What a filter records.**  The calls of `hiw_filter_get_data`, with its own data, and between
them what `hiw_filter_chain_next` does, if it is called. -/
theorem NextAtMostOnce.calls {c : Callback D} (h : c.NextAtMostOnce) (cfg : Config) (i : ℕ)
    (data : D) (onNext : HiwServletFn D) (req : HiwRequest) (r : HiwResponse) : ∃ before behind,
      (c.run cfg i data onNext req r).calls = before ++
        (match c.reaches cfg data req r with
          | none => []
          | some (req', r') => (onNext req' r').calls) ++ behind ∧
      (∀ e ∈ before, e = .getData i data) ∧ ∀ e ∈ behind, e = .getData i data := by
  induction c generalizing req r with
  | done => exact ⟨[], [], rfl, List.forall_mem_nil _, List.forall_mem_nil _⟩
  | recv dest n k ih => exact ih _ _ (h _ _) _ _
  | respond op k ih =>
    unfold run reaches
    rcases r.perform cfg op with _ | ⟨ok, r'⟩
    · exact ⟨[], [], rfl, List.forall_mem_nil _, List.forall_mem_nil _⟩
    · exact ih ok (h ok) req r'
  | getData k ih =>
    obtain ⟨before, behind, hcalls, hbefore, hbehind⟩ := ih data (h data) req r
    refine ⟨.getData i data :: before, behind, ?_, ?_, hbehind⟩
    · rw [run, Outcome.calls_after, hcalls]
      rfl
    · exact List.forall_mem_cons.2 ⟨rfl, hbefore⟩
  | next k ih =>
    -- behind the call there is no other one
    unfold run reaches Outcome.andThen
    match (onNext req r).state with
    | none => exact ⟨[], [], by simp, List.forall_mem_nil _, List.forall_mem_nil _⟩
    | some (req', r') =>
      exact ⟨[], (k.run cfg i data onNext req' r').calls, by simp, List.forall_mem_nil _,
        NoNext.calls h cfg i data onNext req' r'⟩

end Callback

/-! ### The chain -/

namespace HiwFilter

variable {cfg : Config} {fs : List (HiwFilter D)} {servletFunc : Option (Head → Servlet)} {i : ℕ}
  {data : D}

/-- Every entry has a function, and these call `hiw_filter_chain_next` at most once. -/
def Proper (fs : List (HiwFilter D)) : Prop :=
  ∀ e ∈ fs, ∃ f, e.func = some f ∧ ∀ head, (f head).NextAtMostOnce

theorem filter_isFunction_getData {calls : List (Call D)} {d : D}
    (h : ∀ e ∈ calls, e = .getData i d) : calls.filter Call.isFunction = [] :=
  List.filter_eq_nil_iff.2 fun e he => by rw [h e he]; exact Bool.false_ne_true

theorem calls_invoke {f : Head → Callback D} {e : HiwFilter D} (hf : e.func = some f)
    (h : ∀ head, (f head).NextAtMostOnce) (cfg : Config) (i : ℕ) (onNext : HiwServletFn D)
    (req : HiwRequest) (r : HiwResponse) : ∃ before behind,
      (invoke cfg i f e.data onNext req r).calls = .filter i :: (before ++
        (match e.reaches cfg req r with
          | none => []
          | some (req', r') => (onNext req' r').calls) ++ behind) ∧
      (∀ c ∈ before, c = .getData i e.data) ∧ ∀ c ∈ behind, c = .getData i e.data := by
  obtain ⟨before, behind, hcalls, hbefore, hbehind⟩ :=
    (h req.head).calls cfg i e.data onNext req r
  refine ⟨before, behind, ?_, hbefore, hbehind⟩
  rw [invoke, Outcome.calls_after, hcalls, reaches, hf]
  rfl

theorem chainNext_nil (cfg : Config) (servletFunc : Option (HiwServletFn D)) (i : ℕ) (data : D) :
    chainNext cfg servletFunc i (terminated [] data) = callServlet servletFunc := rfl

theorem chainNext_cons {e : HiwFilter D} {f : Head → Callback D} (hf : e.func = some f)
    (cfg : Config) (servletFunc : Option (HiwServletFn D)) (i : ℕ) (fs : List (HiwFilter D))
    (data : D) : chainNext cfg servletFunc i (terminated (e :: fs) data) =
      invoke cfg i f e.data (chainNext cfg servletFunc (i + 1) (terminated fs data)) := by
  simp only [terminated, List.cons_append, chainNext, hf]

/-- With a filter in front, the loop starts a chain like `hiw_filter_chain_next` goes on with
one. -/
theorem startFilterChain_eq (hproper : Proper fs) (hne : fs ≠ []) (cfg : Config)
    (servletFunc : Option (HiwServletFn D)) (data : D) :
    startFilterChain cfg (some (terminated fs data)) servletFunc =
      chainNext cfg servletFunc 0 (terminated fs data) := by
  obtain ⟨e, es, rfl⟩ := List.exists_cons_of_ne_nil hne
  obtain ⟨f, hf, -⟩ := hproper e (by simp)
  rw [chainNext_cons hf]
  simp only [terminated, List.cons_append, startFilterChain, hf]

/-- **The functions of a chain are called in turn.** -/
theorem filter_calls_chainNext (hproper : Proper fs) (data : D) (req : HiwRequest)
    (r : HiwResponse) (h : servletFunc.isSome = true ∨ ¬ AllCallNext cfg fs req r) :
    (chainNext cfg (servletFunc.map (Servlet.fn cfg)) i (terminated fs data) req r).calls.filter
      Call.isFunction = inTurn cfg i fs req r := by
  induction fs generalizing i req r with
  | nil =>
    obtain ⟨servlet, rfl⟩ : ∃ servlet, servletFunc = some servlet :=
      Option.isSome_iff_exists.1 (h.resolve_right fun hno => hno trivial)
    rfl
  | cons e es ih =>
    obtain ⟨⟨f, hf, honce⟩, hproper'⟩ := List.forall_mem_cons.1 hproper
    obtain ⟨before, behind, hcalls, hbefore, hbehind⟩ := calls_invoke hf honce cfg i
      (chainNext cfg (servletFunc.map (Servlet.fn cfg)) (i + 1) (terminated es data)) req r
    rw [chainNext_cons hf, hcalls, List.filter_cons_of_pos rfl, List.filter_append,
      List.filter_append, filter_isFunction_getData hbefore, filter_isFunction_getData hbehind,
      List.nil_append, List.append_nil, inTurn]
    match hreach : e.reaches cfg req r with
    | none => rfl
    | some (req', r') =>
      refine congrArg _ (ih hproper' req' r' (h.imp_right fun hno hall => hno ?_))
      exact ⟨req', r', hreach, hall⟩

/-- Where every filter calls `hiw_filter_chain_next` and there is no servlet function, NULL is
called. -/
theorem null_mem_calls (hproper : Proper fs) (data : D) (req : HiwRequest) (r : HiwResponse)
    (h : AllCallNext cfg fs req r) :
    .null ∈ (chainNext cfg none i (terminated fs data) req r).calls := by
  induction fs generalizing i req r with
  | nil => exact List.mem_singleton_self _
  | cons e es ih =>
    obtain ⟨⟨f, hf, honce⟩, hproper'⟩ := List.forall_mem_cons.1 hproper
    obtain ⟨req', r', hreach, hall⟩ := h
    obtain ⟨before, behind, hcalls, -⟩ := calls_invoke hf honce cfg i
      (chainNext cfg none (i + 1) (terminated es data)) req r
    rw [chainNext_cons hf, hcalls, hreach]
    have hmem := ih hproper' req' r' hall (i := i + 1)
    simp [hmem]

theorem ownData_chainNext (hproper : Proper fs) (data : D) (req : HiwRequest) (r : HiwResponse)
    {j : ℕ} {d : D} (h : .getData j d ∈
      (chainNext cfg (servletFunc.map (Servlet.fn cfg)) i (terminated fs data) req r).calls) :
    i ≤ j ∧ fs[j - i]?.map HiwFilter.data = some d := by
  induction fs generalizing i req r with
  | nil =>
    rw [chainNext_nil] at h
    cases servletFunc <;> simp [callServlet, Servlet.fn] at h
  | cons e es ih =>
    obtain ⟨⟨f, hf, honce⟩, hproper'⟩ := List.forall_mem_cons.1 hproper
    obtain ⟨before, behind, hcalls, hbefore, hbehind⟩ := calls_invoke hf honce cfg i
      (chainNext cfg (servletFunc.map (Servlet.fn cfg)) (i + 1) (terminated es data)) req r
    have hown : ∀ {calls : List (Call D)}, (∀ c ∈ calls, c = .getData i e.data) →
        .getData j d ∈ calls → i ≤ j ∧ (e :: es)[j - i]?.map HiwFilter.data = some d := by
      intro calls hall hmem
      cases hall _ hmem
      simp
    rw [chainNext_cons hf, hcalls] at h
    rcases List.mem_cons.1 h with h | h
    · cases h
    rcases List.mem_append.1 h with h | h
    · rcases List.mem_append.1 h with h | h
      · exact hown hbefore h
      · -- inside of the rest of the chain
        match hreach : e.reaches cfg req r with
        | none => simp [hreach] at h
        | some (req', r') =>
          rw [hreach] at h
          obtain ⟨hle, hdata⟩ := ih hproper' req' r' h
          have hsub : j - i = (j - (i + 1)) + 1 := by omega
          rw [hsub, List.getElem?_cons_succ]
          exact ⟨by omega, hdata⟩
    · exact hown hbehind h

theorem null_not_mem_inTurn (cfg : Config) (i : ℕ) (fs : List (HiwFilter D))
    (req : HiwRequest) (r : HiwResponse) : .null ∉ inTurn cfg i fs req r := by
  induction fs generalizing i req r with
  | nil => simp [inTurn]
  | cons e es ih =>
    rw [inTurn, List.mem_cons, not_or]
    refine ⟨by simp, ?_⟩
    split
    · exact List.not_mem_nil
    · exact ih _ _ _

/-- **When the filters of an array are called in order.**  Exactly if the array is not empty, and
the servlet function is set or some filter does not call `hiw_filter_chain_next`. -/
theorem inOrder_iff (hproper : Proper fs) (data : D) (servletFunc : Option (Head → Servlet))
    (req : HiwRequest) (r : HiwResponse) : InOrder cfg fs data servletFunc req r ↔
      fs ≠ [] ∧ (servletFunc.isSome = true ∨ ¬ AllCallNext cfg fs req r) := by
  constructor
  · intro h
    constructor
    · -- the entry that ends an empty array is called
      rintro rfl
      exact h.notNull (List.mem_singleton_self _)
    · by_contra hno
      obtain ⟨hnone, hall⟩ := not_or.1 hno
      have hne : fs ≠ [] := by
        rintro rfl
        exact h.notNull (List.mem_singleton_self _)
      obtain rfl : servletFunc = none := by simpa using hnone
      refine h.notNull ?_
      rw [startFilterChain_eq hproper hne]
      exact null_mem_calls hproper data req r (not_not.1 hall)
  · rintro ⟨hne, hend⟩
    have heq := startFilterChain_eq hproper hne cfg (servletFunc.map (Servlet.fn cfg)) data
    have horder := filter_calls_chainNext (i := 0) hproper data req r hend
    refine ⟨fun hnull => ?_, by rw [heq]; exact horder, fun i d hmem => ?_⟩
    · rw [heq] at hnull
      refine null_not_mem_inTurn cfg 0 fs req r ?_
      rw [← horder]
      exact List.mem_filter.2 ⟨hnull, rfl⟩
    · rw [heq] at hmem
      simpa using (ownData_chainNext hproper data req r hmem).2

/-- A filter that looks at its data and goes on, and one behind it that answers the request
itself. -/
theorem inOrder_two : InOrder .default
    [⟨some fun _ => .getData fun _ => .next .done, 7⟩,
      ⟨some fun _ => .respond (.setStatusCode 404) fun _ => .done, 8⟩] 0 (some fun _ => .done)
    (.init .default fun _ => 0) (.start .default (fun _ => 0) ⟨[], [], []⟩ false) := by
  refine (inOrder_iff ?_ 0 _ _ _).2 ⟨List.cons_ne_nil _ _, .inl rfl⟩
  exact List.forall_mem_cons.2 ⟨⟨_, rfl, fun _ _ => trivial⟩,
    List.forall_mem_singleton.2 ⟨_, rfl, fun _ _ => trivial⟩⟩

/-- An array that holds nothing but the entry that ends it. -/
theorem not_inOrder : ¬ ∀ (cfg : Config) (fs : List (HiwFilter ℕ)) (data : ℕ)
    (servletFunc : Option (Head → Servlet)) (req : HiwRequest) (r : HiwResponse),
    Proper fs → servletFunc.isSome = true → InOrder cfg fs data servletFunc req r := by
  intro hall
  have hord := hall .default [] 0 (some fun _ => .done) (HiwRequest.init .default fun _ => 0)
    (.start .default (fun _ => 0) ⟨[], [], []⟩ false) (List.forall_mem_nil _) rfl
  exact hord.notNull (List.mem_singleton_self _)

end HiwFilter

/-! ### The chain as one servlet function -/

theorem HiwRequest.head_recv {req req' : HiwRequest} {client client' : HiwClient}
    {dest dest' : Bytes} {n result : ℤ}
    (h : req.recv client dest n = (result, dest', req', client')) : req'.head = req.head := by
  cases recvEnd h with
  | refused => rfl
  | failed => rfl
  | answered => rfl

/-- One servlet function behind the other. -/
def Servlet.andThen : Servlet → Servlet → Servlet
  | done, t => t
  | recv dest n k, t => recv dest n fun result dest => (k result dest).andThen t
  | respond op k, t => respond op fun ok => (k ok).andThen t

theorem Servlet.run_andThen (cfg : Config) (s t : Servlet) (req : HiwRequest) (r : HiwResponse) :
    (s.andThen t).run cfg req r = (s.run cfg req r).bind fun p => t.run cfg p.1 p.2 := by
  induction s generalizing req r with
  | done => rfl
  | recv dest n k ih => exact ih _ _ _ _
  | respond op k ih =>
    rw [andThen, run, run]
    rcases r.perform cfg op with _ | ⟨ok, r'⟩
    · rfl
    · exact ih ok req r'

theorem Servlet.head_run {cfg : Config} {s : Servlet} {req req' : HiwRequest}
    {r r' : HiwResponse} (h : s.run cfg req r = some (req', r')) : req'.head = req.head := by
  induction s generalizing req r with
  | done =>
    cases h
    rfl
  | recv dest n k ih =>
    rcases hrecv : req.recv r.client dest n with ⟨result, dest', req₁, client⟩
    simp only [run, hrecv] at h
    rw [ih _ _ h, HiwRequest.head_recv hrecv]
  | respond op k ih =>
    unfold run at h
    split at h
    · cases h
    · exact ih _ h

/-- A filter function with the rest of the chain in the place of `hiw_filter_chain_next`. -/
def Callback.servlet (data : D) (rest : Servlet) : Callback D → Servlet
  | done => .done
  | recv dest n k => .recv dest n fun result dest => (k result dest).servlet data rest
  | respond op k => .respond op fun ok => (k ok).servlet data rest
  | getData k => (k data).servlet data rest
  | next k => rest.andThen (k.servlet data rest)

theorem Callback.state_run {cfg : Config} {i : ℕ} {data : D} {onNext : HiwServletFn D}
    {rest : Servlet} {head : Head}
    (hnext : ∀ req r, req.head = head → (onNext req r).state = rest.run cfg req r)
    (c : Callback D) {req : HiwRequest} (hreq : req.head = head) (r : HiwResponse) :
    (c.run cfg i data onNext req r).state = (c.servlet data rest).run cfg req r := by
  induction c generalizing req r with
  | done => rfl
  | recv dest n k ih =>
    rcases hrecv : req.recv r.client dest n with ⟨result, dest', req', client⟩
    simp only [run, servlet, Servlet.run, hrecv]
    exact ih result dest' ((HiwRequest.head_recv hrecv).trans hreq) _
  | respond op k ih =>
    unfold run servlet Servlet.run
    rcases r.perform cfg op with _ | ⟨ok, r'⟩
    · rfl
    · exact ih ok hreq r'
  | getData k ih => exact ih data hreq r
  | next k ih =>
    unfold run servlet Outcome.andThen
    rw [Servlet.run_andThen, ← hnext req r hreq]
    cases hstate : (onNext req r).state with
    | none => exact hstate
    | some p =>
      obtain ⟨req', r'⟩ := p
      rw [hnext req r hreq] at hstate
      exact ih ((Servlet.head_run hstate).trans hreq) r'

namespace HiwFilter

variable {cfg : Config} {fs : List (HiwFilter D)} {i : ℕ}

/-- The filters with the servlet function behind them, as one servlet function. -/
def chainServlet (fs : List (HiwFilter D)) (servlet : Head → Servlet) : Head → Servlet :=
  fs.foldr (fun f rest head => (f.func.elim .done fun func => func head).servlet f.data (rest head))
    servlet

/-- A chain does to request and response what its filters do as one servlet function. -/
theorem state_chainNext (hproper : Proper fs) (data : D) (servlet : Head → Servlet)
    (req : HiwRequest) (r : HiwResponse) :
    (chainNext cfg (some (Servlet.fn cfg servlet)) i (terminated fs data) req r).state =
      (chainServlet fs servlet req.head).run cfg req r := by
  induction fs generalizing i req r with
  | nil => rfl
  | cons e es ih =>
    obtain ⟨⟨f, hf, -⟩, hproper'⟩ := List.forall_mem_cons.1 hproper
    rw [chainNext_cons hf, chainServlet, List.foldr_cons, hf]
    refine Callback.state_run (fun req' r' (hhead : req'.head = req.head) => ?_) (f req.head) rfl r
    rw [ih hproper' req' r', hhead]
    rfl

/-- **The loop calls the chain.**  What an iteration of the loop does between reading a request
and looking at what is left of it is the dispatch to filters and servlet function. -/
theorem state_startFilterChain (hproper : Proper fs) (hne : fs ≠ []) (data : D)
    (servlet : Head → Servlet) (s : ChainState) :
    (startFilterChain cfg (some (terminated fs data)) (some (Servlet.fn cfg servlet))
        (s.reader cfg).req (s.response cfg)).state =
      s.served cfg fun req => chainServlet fs servlet req.head := by
  rw [startFilterChain_eq hproper hne]
  exact state_chainNext hproper data servlet _ _

end HiwFilter

end Highway
