import Highway.Jc.Elements
import Highway.Lib.Run

/-!
# The threads of the JSON server

Each request has the mutex of the storage once, and its response is written when the mutex is
released.

* `JsonServer.fault_none_iff_inTime` : no response is written from an element that has been erased,
  if and only if every GET that has found something is written before another request for its uri
  erases it.
* `JsonServer.answers_of_run` : the responses are those of the requests one after the other.
-/

namespace Highway

open Lib

/-- The threads of the JSON server. -/
structure JsonServer where
  storage : ElementStorage
  /-- The requests, in the order in which they have had the mutex, or have been refused without. -/
  served : List JsonStorage.Request
  /-- The response that a thread has to write, and the number of its request. -/
  sending : ℕ → Option (ℕ × ElementStorage.Reply)
  /-- The responses that have been written, with the numbers of their requests. -/
  sent : List (ℕ × JsonStorage.Answer)
  /-- The requests whose responses were given up in front of their contents. -/
  dropped : List ℕ
  /-- The request whose response was written from an element that had been erased. -/
  fault : Option ℕ

namespace JsonServer

open ElementStorage
open JsonStorage (Request Answer securePath request)

inductive Action where
  /-- `on_request` in thread `t`, up to its response -/
  | serve (t : ℕ) (req : Request)
  /-- `hiw_response_write_body_raw` in thread `t`, as far as the client takes it -/
  | send (t : ℕ)
  /-- The client has not even taken the head. -/
  | drop (t : ℕ)

/-- One step of a thread. -/
def step (left : Bytes → Bytes) (s : JsonServer) : Action → Option JsonServer
  | .serve t req =>
    match s.fault, s.sending t with
    | none, none =>
      let (reply, storage) := s.storage.onRequest left req
      some { s with
        storage
        served := s.served ++ [req]
        sending := Function.update s.sending t (some (s.served.length, reply)) }
    | _, _ => none
  | .send t =>
    match s.fault, s.sending t with
    | none, some (k, reply) =>
      let s := { s with sending := Function.update s.sending t none }
      match s.storage.answerOf reply with
      | some answer => some { s with sent := s.sent ++ [(k, answer)] }
      | none => some { s with fault := some k }
    | _, _ => none
  | .drop t =>
    match s.fault, s.sending t with
    | none, some (k, _) =>
      some { s with
        sending := Function.update s.sending t none
        dropped := k :: s.dropped }
    | _, _ => none

/-- The requests that have got their response, or will not get one. -/
def done (s : JsonServer) : List ℕ := s.sent.map Prod.fst ++ s.dropped

/-- The server with an empty cache. -/
def start (mPath : Bytes) (files : Bytes → Option Bytes) : JsonServer :=
  ⟨.new mPath files, [], fun _ => none, [], [], none⟩

/-- A GET that has found something is written before another request erases it. -/
def InTime (s : JsonServer) : Action → Prop
  | .serve .. | .drop _ => True
  | .send t =>
    ∀ k reply, s.sending t = some (k, reply) → ∀ req ∈ s.served[k]?,
      req.method = ascii "GET" → reply.statusCode = 200 →
        ∀ later ∈ s.served.drop (k + 1), ¬ ErasedBy req.uri later

/-! ### A response that is not written yet -/

/-- What has to be written, behind the requests `later`. -/
structure Due (s : ElementStorage) (req : Request) (later : List Request) (reply : Reply)
    (answer : Answer) : Prop where
  /-- The element of a GET that has found something is there until it is erased. -/
  element : ∀ a, reply.body = some (.element a) →
    req.method = ascii "GET" ∧ reply.statusCode = 200 ∧ (securePath s.mPath req.uri).isSome ∧
      ∃ v, answer = ⟨200, some v⟩ ∧
        ((∃ next ∈ later, ErasedBy req.uri next) ∧ s.Gone a ∨
          (∀ next ∈ later, ¬ ErasedBy req.uri next) ∧ s.Holds req.uri a v)
  /-- The other responses hold what they need. -/
  rest : (∀ a, reply.body ≠ some (.element a)) →
    s.answerOf reply = some answer ∧ ¬ (req.method = ascii "GET" ∧ reply.statusCode = 200)

section

variable {s t : ElementStorage} {left : Bytes → Bytes} {req : Request} {later : List Request}
  {reply : Reply} {answer : Answer}

theorem mPath_onRequest (h : s.Sound) (left : Bytes → Bytes) (req : Request) :
    (s.onRequest left req).2.mPath = s.mPath := by
  have habs := congrArg JsonStorage.mPath (h.onRequest left req).2.1
  exact habs.trans (JsonStorage.mPath_onRequest left s.abs req)

theorem answerOf_of_rest (h : ∀ a, reply.body ≠ some (.element a)) :
    s.answerOf reply = t.answerOf reply := by
  unfold answerOf
  cases hbody : reply.body with
  | none => rfl
  | some v =>
    cases v with
    | own bs => rfl
    | element a => exact absurd hbody (h a)

theorem due_onRequest (h : s.Sound) (left : Bytes → Bytes) (req : Request) :
    Due (s.onRequest left req).2 req [] (s.onRequest left req).1
      (s.abs.onRequest left req).1 := by
  obtain ⟨hsound, -, hanswer⟩ := h.onRequest left req
  refine ⟨fun a hbody => ?_, fun hrest => ⟨hanswer, fun ⟨hmethod, hcode⟩ => ?_⟩⟩
  · obtain ⟨hmethod, hcode, hpath, hcache⟩ := found_of_element hbody
    obtain ⟨v, hv⟩ := Option.isSome_iff_exists.1 (hsound.cached _ a hcache)
    refine ⟨hmethod, hcode, by rwa [mPath_onRequest h], v, ?_, .inr ⟨by simp, hcache, hv⟩⟩
    simpa [answerOf, hbody, view, hv, hcode] using hanswer.symm
  · obtain ⟨a, ha⟩ := element_of_found hmethod hcode
    exact hrest a ha

theorem Due.onRequest (h : Due s req later reply answer) (hs : s.Sound) (left : Bytes → Bytes)
    (next : Request) :
    Due (s.onRequest left next).2 req (later ++ [next]) reply answer := by
  refine ⟨fun a hbody => ?_, fun hrest => ?_⟩
  · obtain ⟨hmethod, hcode, hpath, v, hv, hthere⟩ := h.element a hbody
    refine ⟨hmethod, hcode, by rwa [mPath_onRequest hs], v, hv, ?_⟩
    rcases hthere with ⟨⟨other, hmem, herased⟩, hgone⟩ | ⟨hlater, hholds⟩
    · exact .inl ⟨⟨other, List.mem_append_left _ hmem, herased⟩, hgone.onRequest left next⟩
    · by_cases hnext : ErasedBy req.uri next
      · exact .inl ⟨⟨next, by simp, hnext⟩, hholds.gone_onRequest hs left hnext hpath⟩
      · refine .inr ⟨List.forall_mem_append.2 ⟨hlater, by simpa using hnext⟩, ?_⟩
        exact hholds.onRequest hs left hnext
  · obtain ⟨hanswer, hmethod⟩ := h.rest hrest
    exact ⟨(answerOf_of_rest hrest).trans hanswer, hmethod⟩

/-- **A response is what it has to be**, unless the element that its GET has found is erased. -/
theorem Due.answerOf (h : Due s req later reply answer) :
    s.answerOf reply = none ∧ req.method = ascii "GET" ∧ reply.statusCode = 200 ∧
        (∃ next ∈ later, ErasedBy req.uri next) ∨
      s.answerOf reply = some answer ∧
        (req.method = ascii "GET" → reply.statusCode = 200 →
          ∀ next ∈ later, ¬ ErasedBy req.uri next) := by
  by_cases hrest : ∀ a, reply.body ≠ some (.element a)
  · obtain ⟨hanswer, hmethod⟩ := h.rest hrest
    exact .inr ⟨hanswer, fun hget hcode => absurd ⟨hget, hcode⟩ hmethod⟩
  · push Not at hrest
    obtain ⟨a, hbody⟩ := hrest
    obtain ⟨hmethod, hcode, -, v, rfl, ⟨hlater, hgone⟩ | ⟨hlater, hholds⟩⟩ := h.element a hbody
    · exact .inl ⟨by simp [ElementStorage.answerOf, hbody, view, hgone.2], hmethod, hcode, hlater⟩
    · refine .inr ⟨?_, fun _ _ => hlater⟩
      simp [ElementStorage.answerOf, hbody, view, hholds.2, hcode]

end

/-! ### Runs -/

/-- The requests with their answers, one after the other. -/
def history (left : Bytes → Bytes) (s₀ : JsonStorage) (reqs : List Request) :
    List (Request × Answer) :=
  (respond (JsonStorage.onRequest left) s₀ reqs).1

/-- What holds in every run from a storage with `s₀`. -/
structure Inv (left : Bytes → Bytes) (s₀ : JsonStorage) (s : JsonServer) : Prop where
  sound : s.storage.Sound
  abs : s.storage.abs = (respond (JsonStorage.onRequest left) s₀ s.served).2
  sending : ∀ t k reply, s.sending t = some (k, reply) →
    ∃ req answer, (history left s₀ s.served)[k]? = some (req, answer) ∧
      Due s.storage req (s.served.drop (k + 1)) reply answer
  sent : ∀ k answer, (k, answer) ∈ s.sent →
    ∃ req, (history left s₀ s.served)[k]? = some (req, answer)
  /-- Each number belongs to one thread, or to one response that is done with. -/
  apart : ∀ t t' k reply reply', s.sending t = some (k, reply) →
    s.sending t' = some (k, reply') → t = t'
  fresh : ∀ t k reply, s.sending t = some (k, reply) → k ∉ s.done
  nodup : s.done.Nodup
  dropped : ∀ k ∈ s.dropped, k < s.served.length
  all : ∀ k < s.served.length,
    k ∈ s.done ∨ (∃ t reply, s.sending t = some (k, reply)) ∨ s.fault = some k

section

variable {left : Bytes → Bytes} {s₀ : JsonStorage} {s s' : JsonServer} {t k : ℕ} {req : Request}
  {reqs : List Request} {answer : Answer} {reply : Reply}

theorem step_serve (h : step left s (.serve t req) = some s') :
    s.fault = none ∧ s.sending t = none ∧
      s' = { s with
        storage := (s.storage.onRequest left req).2
        served := s.served ++ [req]
        sending := Function.update s.sending t
          (some (s.served.length, (s.storage.onRequest left req).1)) } := by
  cases hfault : s.fault with
  | some k => simp [step, hfault] at h
  | none =>
    cases hsending : s.sending t with
    | some p => simp [step, hfault, hsending] at h
    | none =>
      simp only [step, hfault, hsending] at h
      exact ⟨rfl, rfl, (Option.some.inj h).symm⟩

theorem step_send (h : step left s (.send t) = some s') :
    s.fault = none ∧ ∃ k reply, s.sending t = some (k, reply) ∧
      ((∃ answer, s.storage.answerOf reply = some answer ∧
          s' = { s with
            sending := Function.update s.sending t none
            sent := s.sent ++ [(k, answer)] }) ∨
        s.storage.answerOf reply = none ∧
          s' = { s with
            sending := Function.update s.sending t none
            fault := some k }) := by
  cases hfault : s.fault with
  | some k => simp [step, hfault] at h
  | none =>
    cases hsending : s.sending t with
    | none => simp [step, hfault, hsending] at h
    | some p =>
      obtain ⟨k, reply⟩ := p
      refine ⟨rfl, k, reply, rfl, ?_⟩
      simp only [step, hfault, hsending] at h
      cases hanswer : s.storage.answerOf reply with
      | none =>
        rw [hanswer] at h
        exact .inr ⟨rfl, (Option.some.inj h).symm⟩
      | some answer =>
        rw [hanswer] at h
        exact .inl ⟨answer, rfl, (Option.some.inj h).symm⟩

theorem step_drop (h : step left s (.drop t) = some s') :
    s.fault = none ∧ ∃ k reply, s.sending t = some (k, reply) ∧
      s' = { s with
        sending := Function.update s.sending t none
        dropped := k :: s.dropped } := by
  cases hfault : s.fault with
  | some k => simp [step, hfault] at h
  | none =>
    cases hsending : s.sending t with
    | none => simp [step, hfault, hsending] at h
    | some p =>
      obtain ⟨k, reply⟩ := p
      simp only [step, hfault, hsending] at h
      exact ⟨rfl, k, reply, rfl, (Option.some.inj h).symm⟩

theorem length_history (left : Bytes → Bytes) (s₀ : JsonStorage) (reqs : List Request) :
    (history left s₀ reqs).length = reqs.length := by
  rw [← List.length_map Prod.fst, history, map_fst_respond]

theorem getElem_history (h : (history left s₀ reqs)[k]? = some (req, answer)) :
    reqs[k]? = some req := by
  have hreq := congrArg (Option.map Prod.fst) h
  rwa [← List.getElem?_map, history, map_fst_respond] at hreq

theorem lt_of_history (h : (history left s₀ reqs)[k]? = some (req, answer)) : k < reqs.length := by
  obtain ⟨hlt, -⟩ := List.getElem?_eq_some_iff.1 h
  exact hlt.trans_eq (length_history left s₀ reqs)

/-- Another request leaves the answers of the others. -/
theorem history_append (h : (history left s₀ reqs)[k]? = some (req, answer)) (next : Request) :
    (history left s₀ (reqs ++ [next]))[k]? = some (req, answer) := by
  have hlt := lt_of_history h
  rw [← length_history left s₀] at hlt
  rw [history, respond_append]
  exact (List.getElem?_append_left hlt).trans h

theorem history_last (left : Bytes → Bytes) (s₀ : JsonStorage) (reqs : List Request)
    (next : Request) :
    (history left s₀ (reqs ++ [next]))[reqs.length]? =
      some (next, ((respond (JsonStorage.onRequest left) s₀ reqs).2.onRequest left next).1) := by
  rw [history, respond_append, ← length_history left s₀ reqs]
  exact List.getElem?_concat_length

theorem inv_start (left : Bytes → Bytes) (mPath : Bytes) (files : Bytes → Option Bytes) :
    Inv left (ElementStorage.new mPath files).abs (start mPath files) where
  sound := sound_new mPath files
  abs := rfl
  sending := by simp [start]
  sent := by simp [start]
  apart := by simp [start]
  fresh := by simp [start]
  nodup := List.nodup_nil
  dropped := by simp [start]
  all := by simp [start]

theorem Inv.lt_of_done (h : Inv left s₀ s) (hk : k ∈ s.done) : k < s.served.length := by
  rcases List.mem_append.1 hk with hsent | hdropped
  · obtain ⟨p, hp, rfl⟩ := List.mem_map.1 hsent
    obtain ⟨req, hhistory⟩ := h.sent p.1 p.2 hp
    exact lt_of_history hhistory
  · exact h.dropped k hdropped

theorem Inv.serve (h : Inv left s₀ s) (hstep : step left s (.serve t req) = some s') :
    Inv left s₀ s' := by
  obtain ⟨hfault, hidle, rfl⟩ := step_serve hstep
  have hsound := (h.sound.onRequest left req).1
  have hdue := due_onRequest h.sound left req
  -- the numbers of the other requests are smaller
  have hlt : ∀ t' k reply, s.sending t' = some (k, reply) → k < s.served.length := by
    intro t' k reply hsending
    obtain ⟨req', answer, hhistory, -⟩ := h.sending t' k reply hsending
    exact lt_of_history hhistory
  refine ⟨hsound, ?_, fun t' k reply hsending => ?_, fun k answer hsent => ?_,
    fun t₁ t₂ k reply reply' h₁ h₂ => ?_, fun t' k reply hsending => ?_, h.nodup, fun k hk => ?_,
    fun k hk => ?_⟩
  · rw [(h.sound.onRequest left req).2.1, h.abs, respond_append]
    rfl
  · dsimp only at hsending ⊢
    by_cases ht : t' = t
    · subst ht
      rw [Function.update_self] at hsending
      obtain ⟨rfl, rfl⟩ := Prod.mk.inj (Option.some.inj hsending)
      refine ⟨req, _, history_last left s₀ s.served req, ?_⟩
      rw [← h.abs, List.drop_of_length_le (by simp)]
      exact hdue
    · rw [Function.update_of_ne ht] at hsending
      obtain ⟨req', answer, hhistory, hdue'⟩ := h.sending t' k reply hsending
      refine ⟨req', answer, history_append hhistory req, ?_⟩
      rw [List.drop_append_of_le_length (lt_of_history hhistory)]
      exact hdue'.onRequest h.sound left req
  · obtain ⟨req', hhistory⟩ := h.sent k answer hsent
    exact ⟨req', history_append hhistory req⟩
  · dsimp only at h₁ h₂
    rw [Function.update_apply] at h₁ h₂
    split_ifs at h₁ h₂ with ht₁ ht₂ ht₂
    · exact ht₁.trans ht₂.symm
    · obtain ⟨rfl, -⟩ := Prod.mk.inj (Option.some.inj h₁)
      exact absurd (hlt _ _ _ h₂) (lt_irrefl _)
    · obtain ⟨rfl, -⟩ := Prod.mk.inj (Option.some.inj h₂)
      exact absurd (hlt _ _ _ h₁) (lt_irrefl _)
    · exact h.apart t₁ t₂ k reply reply' h₁ h₂
  · dsimp only at hsending ⊢
    by_cases ht : t' = t
    · subst ht
      rw [Function.update_self] at hsending
      obtain ⟨rfl, -⟩ := Prod.mk.inj (Option.some.inj hsending)
      exact fun hmem => absurd (h.lt_of_done hmem) (lt_irrefl _)
    · rw [Function.update_of_ne ht] at hsending
      exact h.fresh t' k reply hsending
  · exact (h.dropped k hk).trans_le (by simp)
  · dsimp only at hk ⊢
    rw [List.length_append, List.length_singleton] at hk
    rcases Nat.lt_succ_iff_lt_or_eq.1 hk with hk | rfl
    · rcases h.all k hk with hsent | ⟨t', reply, hsending⟩ | hlost
      · exact .inl hsent
      · have ht : t' ≠ t := by
          rintro rfl
          rw [hidle] at hsending
          cases hsending
        exact .inr (.inl ⟨t', reply, (Function.update_of_ne ht ..).trans hsending⟩)
      · exact .inr (.inr hlost)
    · exact .inr (.inl ⟨t, _, Function.update_self ..⟩)

theorem Inv.sending_of_update (h : Inv left s₀ s) (hsending : s.sending t = some (k, reply))
    {t' k' : ℕ} {reply' : Reply}
    (hother : Function.update s.sending t none t' = some (k', reply')) :
    s.sending t' = some (k', reply') ∧ k' ≠ k := by
  by_cases ht : t' = t
  · subst ht
    rw [Function.update_self] at hother
    cases hother
  · rw [Function.update_of_ne ht] at hother
    refine ⟨hother, ?_⟩
    rintro rfl
    exact ht (h.apart t' t k' reply' reply hother hsending)

theorem Inv.all_of_update (h : Inv left s₀ s) (hfault : s.fault = none)
    (hsending : s.sending t = some (k, reply)) {k' : ℕ} (hk' : k' < s.served.length)
    (hne : k' ≠ k) : k' ∈ s.done ∨
      ∃ t' reply', Function.update s.sending t none t' = some (k', reply') := by
  rcases h.all k' hk' with hsent | ⟨t', reply', hsending'⟩ | hlost
  · exact .inl hsent
  · have ht : t' ≠ t := by
      rintro rfl
      rw [hsending] at hsending'
      exact hne (Prod.mk.inj (Option.some.inj hsending')).1.symm
    exact .inr ⟨t', reply', (Function.update_of_ne ht ..).trans hsending'⟩
  · rw [hfault] at hlost
    cases hlost

/-- A thread is done with its response, or has looked at an element that has been erased. -/
theorem Inv.finish (h : Inv left s₀ s) (hfault : s.fault = none)
    (hsending : s.sending t = some (k, reply)) {sent' : List (ℕ × Answer)} {dropped' : List ℕ}
    {fault' : Option ℕ}
    (hsent : ∀ k answer, (k, answer) ∈ sent' →
      ∃ req, (history left s₀ s.served)[k]? = some (req, answer))
    (hdropped : ∀ k ∈ dropped', k < s.served.length)
    (hdone : (sent'.map Prod.fst ++ dropped').Perm (k :: s.done) ∨
      sent'.map Prod.fst ++ dropped' = s.done ∧ fault' = some k) :
    Inv left s₀
      ⟨s.storage, s.served, Function.update s.sending t none, sent', dropped', fault'⟩ := by
  obtain ⟨hmem, hnodup, hcover⟩ : (∀ k' ∈ sent'.map Prod.fst ++ dropped', k' ∈ k :: s.done) ∧
      (sent'.map Prod.fst ++ dropped').Nodup ∧
      (∀ k' ∈ s.done, k' ∈ sent'.map Prod.fst ++ dropped') ∧
        (k ∈ sent'.map Prod.fst ++ dropped' ∨ fault' = some k) := by
    rcases hdone with hperm | ⟨heq, hlost⟩
    · refine ⟨fun k' => hperm.mem_iff.1, hperm.nodup_iff.2 ?_, fun k' hk' => ?_, .inl ?_⟩
      · exact List.nodup_cons.2 ⟨h.fresh t k reply hsending, h.nodup⟩
      · exact hperm.mem_iff.2 (List.mem_cons_of_mem _ hk')
      · exact hperm.mem_iff.2 List.mem_cons_self
    · rw [heq]
      exact ⟨fun k' => List.mem_cons_of_mem _, h.nodup, fun k' hk' => hk', .inr hlost⟩
  refine ⟨h.sound, h.abs, fun t' k' reply' h' => ?_, hsent, fun t₁ t₂ k' r r' h₁ h₂ => ?_,
    fun t' k' reply' h' hk' => ?_, hnodup, hdropped, fun k' hk' => ?_⟩
  · exact h.sending t' k' reply' (h.sending_of_update hsending h').1
  · exact h.apart t₁ t₂ k' r r' (h.sending_of_update hsending h₁).1
      (h.sending_of_update hsending h₂).1
  · obtain ⟨hsending', hne⟩ := h.sending_of_update hsending h'
    rcases List.mem_cons.1 (hmem k' hk') with heq | hk'
    · exact hne heq
    · exact h.fresh t' k' reply' hsending' hk'
  · by_cases hne : k' = k
    · subst hne
      exact hcover.2.imp_right .inr
    · rcases h.all_of_update hfault hsending hk' hne with hk' | hsending'
      · exact .inl (hcover.1 k' hk')
      · exact .inr (.inl hsending')

theorem Inv.send (h : Inv left s₀ s) (hstep : step left s (.send t) = some s') :
    Inv left s₀ s' ∧ (s'.fault = none ↔ InTime s (.send t)) := by
  obtain ⟨hfault, k, reply, hsending, hwrite⟩ := step_send hstep
  obtain ⟨req, answer, hhistory, hdue⟩ := h.sending t k reply hsending
  have hreq := getElem_history hhistory
  rcases hwrite with ⟨answer', hanswer, rfl⟩ | ⟨hnone, rfl⟩
  · rcases hdue.answerOf with ⟨hnone, -⟩ | ⟨hsome, hintime⟩
    · rw [hanswer] at hnone
      cases hnone
    · obtain rfl : answer' = answer := Option.some.inj (hanswer.symm.trans hsome)
      refine ⟨h.finish hfault hsending (fun k' answer' hsent => ?_) h.dropped (.inl ?_),
        fun _ => ?_, fun _ => hfault⟩
      · rcases List.mem_append.1 hsent with hsent | hsent
        · exact h.sent k' answer' hsent
        · obtain ⟨rfl, rfl⟩ := Prod.mk.inj (List.mem_singleton.1 hsent)
          exact ⟨req, hhistory⟩
      · rw [List.map_append, List.append_assoc]
        exact List.perm_middle
      · intro k' reply' hsending' req' hreq' hmethod hcode
        obtain ⟨rfl, rfl⟩ := Prod.mk.inj (Option.some.inj (hsending.symm.trans hsending'))
        obtain rfl : req = req' := Option.some.inj (hreq.symm.trans hreq')
        exact hintime hmethod hcode
  · rcases hdue.answerOf with ⟨-, hmethod, hcode, next, hnext, herased⟩ | ⟨hsome, -⟩
    · refine ⟨h.finish hfault hsending h.sent h.dropped (.inr ⟨rfl, rfl⟩), fun hlost => ?_,
        fun hintime => ?_⟩
      · cases hlost
      · exact absurd herased (hintime k reply hsending req hreq hmethod hcode next hnext)
    · rw [hnone] at hsome
      cases hsome

theorem Inv.drop (h : Inv left s₀ s) (hstep : step left s (.drop t) = some s') :
    Inv left s₀ s' := by
  obtain ⟨hfault, k, reply, hsending, rfl⟩ := step_drop hstep
  obtain ⟨req, answer, hhistory, -⟩ := h.sending t k reply hsending
  refine h.finish hfault hsending h.sent (fun k' hk' => ?_) (.inl List.perm_middle)
  rcases List.mem_cons.1 hk' with rfl | hk'
  · exact lt_of_history hhistory
  · exact h.dropped k' hk'

/-- What one step preserves, and when it looks at an element that has been erased. -/
theorem Inv.step (h : Inv left s₀ s) {a : Action} (hstep : step left s a = some s') :
    Inv left s₀ s' ∧ (s'.fault = none ↔ s.fault = none ∧ InTime s a) := by
  cases a with
  | serve t req =>
    obtain ⟨hfault, -, hs'⟩ := step_serve hstep
    refine ⟨h.serve hstep, ?_⟩
    rw [hs']
    exact (and_iff_left trivial).symm
  | send t =>
    obtain ⟨hinv, hiff⟩ := h.send hstep
    obtain ⟨hfault, -⟩ := step_send hstep
    exact ⟨hinv, hiff.trans (and_iff_right hfault).symm⟩
  | drop t =>
    obtain ⟨hfault, k, reply, -, hs'⟩ := step_drop hstep
    refine ⟨h.drop hstep, ?_⟩
    rw [hs']
    exact (and_iff_left trivial).symm

variable {mPath : Bytes} {files : Bytes → Option Bytes} {as : List Action}

/-- **Whether a response is written from an element that has been erased.**  In every interleaving
it is not if and only if every GET that has found something is written before another request for
its uri erases what it has found. -/
theorem fault_none_iff_inTime (hr : runLabels (step left) (start mPath files) as = some s) :
    s.fault = none ↔ AllSteps (step left) InTime (start mPath files) as := by
  have hiff := iff_allSteps_of_runLabels (Q := fun s : JsonServer => s.fault = none)
    (fun _ _ _ hinv hstep => hinv.step hstep) (inv_start left mPath files) hr
  exact hiff.trans (and_iff_right rfl)

/-- A PUT has the mutex before the response of a GET is written. -/
def overtaken : List Action := [.serve 0 (request "GET"), .serve 1 (request "PUT"), .send 0]

def aJson (path : Bytes) : Option Bytes :=
  if path = ascii "data/a.json" then some (ascii "1") else none

theorem fault_overtaken :
    ∃ s, runLabels (step fun _ => []) (start (ascii "data") aJson) overtaken = some s ∧
      s.fault = some 0 ∧
      ¬ AllSteps (step fun _ => []) InTime (start (ascii "data") aJson) overtaken := by
  refine ⟨_, rfl, rfl, fun hall => ?_⟩
  have hfault := (fault_none_iff_inTime rfl).2 hall
  cases hfault

/-- **The requests are answered as one after the other**, in the order in which they have had the
mutex: no request is answered twice, each response is the answer of its request, and the files and
the cache are those behind the requests.  If no thread has a response to write, and none has looked
at an element that has been erased, all requests are done. -/
theorem answers_of_run (hr : runLabels (step left) (start mPath files) as = some s) :
    s.done.Nodup ∧
      (∀ k answer, (k, answer) ∈ s.sent → ∃ req ∈ s.served[k]?,
        (history left (ElementStorage.new mPath files).abs s.served)[k]? = some (req, answer)) ∧
      s.storage.abs =
        (respond (JsonStorage.onRequest left) (ElementStorage.new mPath files).abs s.served).2 ∧
      (s.fault = none → (∀ t, s.sending t = none) →
        ∀ k < s.served.length, k ∈ s.done) := by
  have hinv : Inv left (ElementStorage.new mPath files).abs s :=
    invariant_of_runLabels (fun _ _ _ _ h hstep => (h.step hstep).1) (inv_start left mPath files) hr
  refine ⟨hinv.nodup, fun k answer hsent => ?_, hinv.abs, fun hfault hidle k hk => ?_⟩
  · obtain ⟨req, hhistory⟩ := hinv.sent k answer hsent
    exact ⟨req, getElem_history hhistory, hhistory⟩
  · rcases hinv.all k hk with hdone | ⟨t, reply, hsending⟩ | hlost
    · exact hdone
    · rw [hidle t] at hsending
      cases hsending
    · rw [hfault] at hlost
      cases hlost

/-- The response of the request that has had the mutex first is written last. -/
def inTurn : List Action :=
  [.serve 0 (request "PUT"), .serve 1 (request "GET"), .send 1, .send 0]

theorem answers_inTurn :
    ∃ s, runLabels (step fun _ => []) (start (ascii "data") aJson) inTurn = some s ∧
      s.sent.map Prod.fst = [1, 0] ∧ ∀ k < s.served.length, k ∈ s.done := by
  refine ⟨_, rfl, rfl, ?_⟩
  have hrun := @answers_of_run (fun _ => []) _ (ascii "data") aJson inTurn rfl
  refine hrun.2.2.2 rfl fun t => ?_
  match t with
  | 0 => rfl
  | 1 => rfl
  | t + 2 => rfl

end

end JsonServer

end Highway
