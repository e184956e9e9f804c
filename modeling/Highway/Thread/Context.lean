import Highway.Lib.Chain
import Highway.Lib.Run

/-!
# Thread contexts

A thread carries a stack of contexts, objects of its callers that are linked through `parent`.
`ContextRun` is a thread with the memory of the contexts, and `perform` what the functions do to
them.  An object that is not on the stack may change in every way: its owner sets key and value, or
it is pushed on another thread.  An object may be pushed again when it has been popped, whatever its
`parent` still points to.

`Bindings` says what the functions are for, without links: a list of bindings, which the operations
determine.  In every sequence of operations, the links from the thread's context on are this list,
and a key is looked up in it from the innermost binding outwards (`ContextRun.isStack`).
-/

namespace Highway

open Lib

variable {A T K V : Type*}

/-- `hiw_thread_context`, at an address of type `A`.  Keys and values are pointers, so they may be
`NULL`. -/
structure HiwThreadContext (A T K V : Type*) where
  key : Option K
  value : Option V
  thread : Option T
  parent : Option A

/-- The thread `thread` with the memory of the contexts. -/
structure ContextRun (A T K V : Type*) where
  memory : A → HiwThreadContext A T K V
  thread : T
  context : Option A

/-- What can happen to the thread and the contexts. -/
inductive ContextRun.Op (A T K V : Type*) where
  | push (context : A)
  | pop
  | clear
  /-- A context gets other contents. -/
  | write (context : A) (node : HiwThreadContext A T K V)

/-! ### What contexts are for -/

/-- The contents of a context while it is on the stack. -/
structure Binding (A K V : Type*) where
  context : A
  key : Option K
  value : Option V

/-- The contents of the contexts, and what has been pushed and not yet popped, the last one
first. -/
structure Bindings (A K V : Type*) where
  contents : A → Option K × Option V
  stack : List (Binding A K V)

namespace Bindings

/-- The contexts on the stack. -/
def contexts (b : Bindings A K V) : List A := b.stack.map Binding.context

/-- The value of the innermost binding of a key. -/
def lookup [DecidableEq K] (b : Bindings A K V) (key : K) : Option V :=
  (b.stack.find? fun x => x.key = some key).bind Binding.value

/-- One operation; `none` if it touches a context that is on the stack. -/
def step [DecidableEq A] (b : Bindings A K V) : ContextRun.Op A T K V → Option (Bindings A K V)
  | .push context =>
    if context ∈ b.contexts then none
    else some { b with
      stack := ⟨context, (b.contents context).1, (b.contents context).2⟩ :: b.stack }
  | .pop => some { b with stack := b.stack.tail }
  | .clear => some { b with stack := [] }
  | .write context node =>
    if context ∈ b.contexts then none
    else some { b with contents := Function.update b.contents context (node.key, node.value) }

end Bindings

/-! ### The functions -/

namespace ContextRun

/-- The links. -/
def parent (s : ContextRun A T K V) (context : A) : Option A := (s.memory context).parent

/-- `hiw_thread_context_pop` -/
def pop (s : ContextRun A T K V) : Option A × ContextRun A T K V :=
  match s.context with
  | none => (none, s)
  | some context => (some context, { s with context := (s.memory context).parent })

/-- `hiw_thread_context_clear` -/
def clear (s : ContextRun A T K V) : ContextRun A T K V := { s with context := none }

/-- `hiw_thread_context_push` -/
def push [DecidableEq A] (s : ContextRun A T K V) (value : A) :
    Option A × ContextRun A T K V :=
  let prev := s.context
  (prev,
    { s with
      memory := Function.update s.memory value
        { s.memory value with thread := some s.thread, parent := s.context }
      context := some value })

/-- One operation. -/
def perform [DecidableEq A] (s : ContextRun A T K V) : Op A T K V → ContextRun A T K V
  | .push context => (s.push context).2
  | .pop => s.pop.2
  | .clear => s.clear
  | .write context node => { s with memory := Function.update s.memory context node }

/-- `hiw_thread_context_find_traverse` ; `none` when it needs more than `fuel` calls. -/
def findTraverse [DecidableEq K] (s : ContextRun A T K V) (key : K) : ℕ → A → Option (Option V)
  | 0, _ => none
  | fuel + 1, context =>
    if (s.memory context).key = some key then some (s.memory context).value
    else
      match (s.memory context).parent with
      | some parent => findTraverse s key fuel parent
      | none => some none

/-- `hiw_thread_context_find` -/
def find [DecidableEq K] (s : ContextRun A T K V) (key : Option K) (fuel : ℕ) :
    Option (Option V) :=
  match key with
  | none => some none
  | some key =>
    match s.context with
    | some context => s.findTraverse key fuel context
    | none => some none

/-! ### The links are the stack -/

/-- The links from the thread's context on are the stack, with the contents they were pushed
with. -/
structure Linked (b : Bindings A K V) (s : ContextRun A T K V) : Prop where
  chain : Chain s.parent s.context b.contexts
  contents : ∀ context,
    b.contents context = ((s.memory context).key, (s.memory context).value)
  stack : ∀ x ∈ b.stack, b.contents x.context = (x.key, x.value)

/-- A thread without contexts, and objects with any contents. -/
def start (memory : A → HiwThreadContext A T K V) (thread : T) : ContextRun A T K V :=
  ⟨memory, thread, none⟩

/-- No bindings. -/
def bindings (memory : A → HiwThreadContext A T K V) : Bindings A K V :=
  ⟨fun context => ((memory context).key, (memory context).value), []⟩

variable {b b' : Bindings A K V} {s : ContextRun A T K V} {context : A} {key : K}

theorem linked_start (memory : A → HiwThreadContext A T K V) (thread : T) :
    Linked (bindings memory) (start memory thread) :=
  ⟨.nil, fun _ => rfl, fun _ hx => absurd hx List.not_mem_nil⟩

theorem Linked.clear (h : Linked b s) : Linked { b with stack := [] } s.clear :=
  ⟨.nil, h.contents, fun _ hx => absurd hx List.not_mem_nil⟩

theorem Linked.pop (h : Linked b s) : Linked { b with stack := b.stack.tail } s.pop.2 := by
  have htail : ∀ x ∈ b.stack.tail, b.contents x.context = (x.key, x.value) :=
    fun x hx => h.stack x (List.mem_of_mem_tail hx)
  obtain ⟨contents, stack⟩ := b
  obtain ⟨memory, thread, context⟩ := s
  have hchain := h.chain
  cases stack with
  | nil =>
    obtain rfl : context = none := hchain.start_eq
    exact ⟨hchain, h.contents, htail⟩
  | cons x stack =>
    obtain rfl : context = some x.context := hchain.start_eq
    refine ⟨?_, h.contents, htail⟩
    cases hchain with
    | cons hchain => exact hchain

section

variable [DecidableEq A]

theorem Linked.write (h : Linked b s) (hc : context ∉ b.contexts)
    (node : HiwThreadContext A T K V) :
    Linked { b with contents := Function.update b.contents context (node.key, node.value) }
      { s with memory := Function.update s.memory context node } := by
  refine ⟨h.chain.congr fun q hq => ?_, fun q => ?_, fun x hx => ?_⟩
  · simp only [parent]
    rw [Function.update_of_ne (ne_of_mem_of_not_mem hq hc)]
  · dsimp only
    by_cases hq : q = context
    · rw [hq, Function.update_self, Function.update_self]
    · rw [Function.update_of_ne hq, Function.update_of_ne hq]
      exact h.contents q
  · have hne : x.context ≠ context := ne_of_mem_of_not_mem (List.mem_map_of_mem hx) hc
    exact (Function.update_of_ne hne ..).trans (h.stack x hx)

theorem Linked.push (h : Linked b s) (hc : context ∉ b.contexts) :
    Linked { b with stack := ⟨context, (b.contents context).1, (b.contents context).2⟩ :: b.stack }
      (s.push context).2 := by
  have hwrite := h.write hc { s.memory context with thread := some s.thread, parent := s.context }
  refine ⟨.cons ?_, fun q => ?_, List.forall_mem_cons.2 ⟨rfl, h.stack⟩⟩
  · have hparent : (s.push context).2.parent context = s.context := by
      simp only [ContextRun.push, parent, Function.update_self]
    rw [hparent]
    exact hwrite.chain
  · -- key and value stay
    dsimp only [ContextRun.push]
    by_cases hq : q = context
    · rw [hq, Function.update_self]
      exact h.contents context
    · rw [Function.update_of_ne hq]
      exact h.contents q

/-- **Every operation keeps the links in step with the bindings.** -/
theorem Linked.step {op : Op A T K V} (h : Linked b s) (hstep : b.step op = some b') :
    Linked b' (s.perform op) := by
  cases op with
  | push context =>
    simp only [Bindings.step] at hstep
    split_ifs at hstep with hc
    obtain rfl := Option.some.inj hstep
    exact h.push hc
  | pop =>
    obtain rfl := Option.some.inj hstep
    exact h.pop
  | clear =>
    obtain rfl := Option.some.inj hstep
    exact h.clear
  | write context node =>
    simp only [Bindings.step] at hstep
    split_ifs at hstep with hc
    obtain rfl := Option.some.inj hstep
    exact h.write hc node

end

/-! ### Looking up a key -/

theorem findTraverse_eq [DecidableEq K] {stack : List (Binding A K V)}
    (hchain : Chain s.parent (some context) (stack.map Binding.context))
    (hcontents : ∀ x ∈ stack, (s.memory x.context).key = x.key ∧
      (s.memory x.context).value = x.value) {fuel : ℕ} (hfuel : stack.length ≤ fuel) :
    s.findTraverse key fuel context =
      some ((stack.find? fun x => x.key = some key).bind Binding.value) := by
  induction stack generalizing context fuel with
  | nil => cases hchain
  | cons x stack ih =>
    obtain ⟨fuel, rfl⟩ := Nat.exists_eq_add_of_le' (Nat.le_trans (Nat.succ_pos _) hfuel)
    obtain ⟨⟨hkey, hvalue⟩, hcontents⟩ := List.forall_mem_cons.1 hcontents
    obtain ⟨rfl, hrest⟩ : x.context = context ∧
        Chain s.parent (s.parent x.context) (stack.map Binding.context) := by
      cases hchain with
      | cons hchain => exact ⟨rfl, hchain⟩
    rw [findTraverse, hkey, hvalue]
    by_cases hk : x.key = some key
    · rw [if_pos hk, List.find?_cons_of_pos (by simpa using hk)]
      rfl
    · rw [if_neg hk, List.find?_cons_of_neg (by simpa using hk)]
      -- the binding is not the one, so the search goes on behind it, if there is anything
      change (match s.parent x.context with
        | some parent => findTraverse s key fuel parent
        | none => some none) = _
      cases hp : s.parent x.context with
      | none =>
        rw [hp, Chain.nil_iff, List.map_eq_nil_iff] at hrest
        rw [hrest]
        rfl
      | some next =>
        rw [hp] at hrest
        exact ih hrest hcontents (Nat.le_of_succ_le_succ hfuel)

variable [DecidableEq A] [DecidableEq K]

/-- The thread's contexts are the stack of the bindings `b`. -/
structure IsStack (b : Bindings A K V) (s : ContextRun A T K V) : Prop where
  chain : Chain s.parent s.context b.contexts
  push : ∀ context ∉ b.contexts, (s.push context).1 = b.contexts.head? ∧
    Chain (s.push context).2.parent (s.push context).2.context (context :: b.contexts)
  pop : s.pop.1 = b.contexts.head? ∧ Chain s.pop.2.parent s.pop.2.context b.contexts.tail
  clear : Chain s.clear.parent s.clear.context []
  /-- The search is finite, and finds the innermost binding. -/
  find : ∀ key fuel, b.stack.length ≤ fuel → s.find (some key) fuel = some (b.lookup key)

theorem Linked.toIsStack (h : Linked b s) : IsStack b s := by
  have hcontext : s.context = b.contexts.head? := h.chain.start_eq
  refine ⟨h.chain, fun context hc => ⟨hcontext, (h.push hc).chain⟩, ⟨?_, ?_⟩, .nil,
    fun key fuel hfuel => ?_⟩
  · rw [← hcontext, ContextRun.pop]
    cases s.context <;> rfl
  · rw [Bindings.contexts, ← List.map_tail]
    exact h.pop.chain
  · cases hs : s.context with
    | none =>
      have hchain := h.chain
      rw [hs, Chain.nil_iff, Bindings.contexts, List.map_eq_nil_iff] at hchain
      simp only [ContextRun.find, hs, Bindings.lookup, hchain]
      rfl
    | some context =>
      have hchain := h.chain
      rw [hs] at hchain
      simp only [ContextRun.find, hs]
      refine findTraverse_eq hchain (fun x hx => ?_) hfuel
      exact Prod.mk.inj ((h.contents x.context).symm.trans (h.stack x hx))

/-- **Thread contexts behave as a stack of bindings.**  After every sequence of operations, none of
which touches a context that is on the stack. -/
theorem isStack {memory : A → HiwThreadContext A T K V} {thread : T} {ops : List (Op A T K V)}
    (hops : runLabels Bindings.step (bindings memory) ops = some b) :
    IsStack b (ops.foldl perform (start memory thread)) := by
  have hlinked : Linked b (ops.foldl perform (start memory thread)) :=
    related_of_runLabels (fun _ _ _ _ h hstep => h.step hstep) (linked_start memory thread) hops
  exact hlinked.toIsStack

/-- Two contexts with the same key, the outer one pushed again as the inner one. -/
def again : List (Op ℕ Unit ℕ ℕ) := [.push 1, .push 2, .pop, .pop, .push 2, .push 1]

/-- Contexts that have been used before. -/
def oldContexts (c : ℕ) : HiwThreadContext ℕ Unit ℕ ℕ := ⟨some 7, some c, none, some c⟩

theorem isStack_again : ∃ b : Bindings ℕ ℕ ℕ,
    runLabels Bindings.step (bindings oldContexts) again = some b ∧ b.contexts = [1, 2] ∧
      IsStack b (again.foldl perform (start oldContexts ())) :=
  ⟨_, rfl, rfl, isStack rfl⟩

end ContextRun

end Highway
