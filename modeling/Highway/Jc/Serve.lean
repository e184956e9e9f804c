import Highway.Jc.Storage

/-!
# The JSON server

`on_request` answers a request from the storage.  The storage keeps the old contents of a file in
its cache when it gets new ones, and so does a client see them:

* `JsonStorage.gets_of_cached` : whatever is put under a uri, every GET of it answers with what has
  been cached first, until it is deleted.
* `JsonStorage.put_hidden` : what is put under a uri that has not been asked for is not found.
* `JsonStorage.get_of_restarted`, `JsonStorage.get_of_deleted` : it is found when the server is
  started again, or when the uri is deleted.
-/

namespace Highway

open Lib

namespace JsonStorage

/-- A request, with what `hiw_request_recv` gets of its body, and what the system does. -/
structure Request where
  method : Bytes
  uri : Bytes
  contentLength : ℤ
  received : Bytes
  opens : Bool
  renames : Bool
  deriving DecidableEq

/-- A response: its status code, and its body with the type `application/json`. -/
structure Answer where
  statusCode : ℤ
  body : Option Bytes
  deriving DecidableEq

/-- `new_data`, after `resize` and `hiw_request_recv` -/
def Request.newData (req : Request) : Bytes :=
  overwrite (List.replicate req.contentLength.toNat 0) (req.received.take req.contentLength.toNat)

/-- `on_request` -/
def onRequest (left : Bytes → Bytes) (s : JsonStorage) (req : Request) : Answer × JsonStorage :=
  if HiwString.cmp req.method (ascii "GET") then
    match s.getView req.uri [] req.opens with
    | (.thrown _, s) => (⟨400, none⟩, s)
    | (.value result, s) =>
      if result = [] then (⟨404, none⟩, s) else (⟨200, some result⟩, s)
  else if HiwString.cmp req.method (ascii "PUT") then
    if req.contentLength = 0 then (⟨400, none⟩, s)
    -- `resize` throws
    else if req.contentLength < 0 then (⟨400, none⟩, s)
    else
      match s.addView left req.uri req.newData req.opens with
      | (.thrown _, s) => (⟨400, none⟩, s)
      | (.value oldData, s) => (⟨200, some oldData⟩, s)
  else if HiwString.cmp req.method (ascii "DELETE") then
    match s.removeView req.uri req.renames with
    | (.thrown _, s) => (⟨400, none⟩, s)
    | (.value removedData, s) =>
      if removedData = [] then (⟨404, none⟩, s) else (⟨200, some removedData⟩, s)
  else (⟨404, none⟩, s)

/-- The operation that the request leads to. -/
def Request.op (req : Request) : Option Op :=
  if req.method = ascii "GET" then some (.get req.uri [] req.opens)
  else if req.method = ascii "PUT" then
    if 0 < req.contentLength then some (.add req.uri req.newData req.opens) else none
  else if req.method = ascii "DELETE" then some (.remove req.uri req.renames)
  else none

/-- What is answered when the operation has a result. -/
def answer : Op → Result → Answer
  | _, .thrown _ => ⟨400, none⟩
  | .add .., .value v => ⟨200, some v⟩
  | .get .., .value v | .remove .., .value v => if v = [] then ⟨404, none⟩ else ⟨200, some v⟩

variable {s t : JsonStorage} {left : Bytes → Bytes} {req : Request} {reqs : List Request}
  {uri v path : Bytes} {op : Op} {B : Bytes → Prop}

/-- **A request is an operation of the storage.** -/
theorem onRequest_of_op (left : Bytes → Bytes) (s : JsonStorage) (hop : req.op = some op) :
    s.onRequest left req = (answer op (s.perform left op).1, (s.perform left op).2) := by
  unfold Request.op at hop
  unfold onRequest
  simp only [HiwString.cmp_eq, decide_eq_true_eq]
  split_ifs at hop with hget hput hlength hdelete
  · obtain rfl := Option.some.inj hop
    rw [if_pos hget]
    simp only [perform]
    rcases s.getView req.uri [] req.opens with ⟨v | what, t⟩
    · simp only [answer]
      split_ifs <;> rfl
    · rfl
  · obtain rfl := Option.some.inj hop
    rw [if_neg hget, if_pos hput, if_neg (by omega), if_neg (by omega)]
    simp only [perform]
    rcases s.addView left req.uri req.newData req.opens with ⟨v | what, t⟩ <;> rfl
  · obtain rfl := Option.some.inj hop
    rw [if_neg hget, if_neg hput, if_pos hdelete]
    simp only [perform]
    rcases s.removeView req.uri req.renames with ⟨v | what, t⟩
    · simp only [answer]
      split_ifs <;> rfl
    · rfl

theorem onRequest_of_none (left : Bytes → Bytes) (s : JsonStorage) (hop : req.op = none) :
    (s.onRequest left req).2 = s := by
  unfold Request.op at hop
  unfold onRequest
  simp only [HiwString.cmp_eq, decide_eq_true_eq]
  split_ifs at hop with hget hput hlength hdelete
  · rw [if_neg hget, if_pos hput]
    split_ifs <;> first | rfl | omega
  · rw [if_neg hget, if_neg hput, if_neg hdelete]

theorem respond_onRequest (left : Bytes → Bytes) (s : JsonStorage) (reqs : List Request) :
    (respond (onRequest left) s reqs).2 =
      (respond (perform left) s (reqs.filterMap Request.op)).2 := by
  induction reqs generalizing s with
  | nil => rfl
  | cons req reqs ih =>
    rw [respond_cons]
    cases hop : req.op with
    | none =>
      rw [List.filterMap_cons_none hop, onRequest_of_none left s hop]
      exact ih s
    | some op =>
      rw [List.filterMap_cons_some hop, respond_cons, onRequest_of_op left s hop]
      exact ih _

/-! ### What is cached -/

/-- The operation leaves what is cached for its key. -/
def Op.Keeps : Op → Prop
  | .get .. => True
  | .add _ _ opens => opens = true
  | .remove .. => False

/-- So does the request for the uri. -/
def Request.Keeps (uri : Bytes) (req : Request) : Prop :=
  ∀ op ∈ req.op, op.key = uri → op.Keeps

theorem mCache_perform_of_ne (left : Bytes → Bytes) (hkey : uri ≠ op.key) :
    (s.perform left op).2.mCache uri = s.mCache uri := by
  cases op with
  | get key defaultValue opens =>
    rw [Op.key] at hkey
    simp only [perform, getView]
    repeat' split
    all_goals simp only [Function.update_of_ne hkey]
  | add key newData opens =>
    rw [Op.key] at hkey
    simp only [perform, addView]
    repeat' split
    all_goals simp only [Function.update_of_ne hkey]
  | remove key renames =>
    rw [Op.key] at hkey
    simp only [perform, removeView]
    repeat' split
    all_goals simp only [mCache_rename, Function.update_of_ne hkey]

theorem Register.step_of_cached (left : Bytes → Bytes) {e : Register} (hv : e.cached = some v)
    (hkeeps : op.Keeps) :
    (e.step left op).2.cached = some v ∧
      ∀ key defaultValue opens, op = .get key defaultValue opens →
        (e.step left op).1 = .value v := by
  cases op with
  | get key defaultValue opens =>
    simp only [Register.step, hv]
    exact ⟨trivial, fun _ _ _ _ => trivial⟩
  | add key newData opens =>
    have hopens : opens = true := hkeeps
    simp [Register.step, hv, hopens]
  | remove => exact absurd hkeeps id

/-- What is cached stays, and is what a GET is answered with. -/
theorem onRequest_of_cached (hpath : (securePath s.mPath uri).isSome) (hv : s.mCache uri = some v)
    (hkeeps : req.Keeps uri) :
    (s.onRequest left req).2.mCache uri = some v ∧
      (req.method = ascii "GET" → req.uri = uri →
        (s.onRequest left req).1 = if v = [] then ⟨404, none⟩ else ⟨200, some v⟩) := by
  cases hop : req.op with
  | none =>
    refine ⟨by rw [onRequest_of_none left s hop, hv], fun hget _ => ?_⟩
    rw [Request.op, if_pos hget] at hop
    cases hop
  | some op =>
    rw [onRequest_of_op left s hop]
    by_cases hkey : op.key = uri
    · subst hkey
      obtain ⟨hresult, hregister⟩ := register_perform left hpath
      obtain ⟨hcached, hanswer⟩ := Register.step_of_cached left
        (e := register s.mPath op.key s) hv (hkeeps op hop rfl)
      refine ⟨?_, fun hget _ => ?_⟩
      · rw [← hregister] at hcached
        exact hcached
      · rw [Request.op, if_pos hget] at hop
        obtain rfl := Option.some.inj hop
        rw [hresult, hanswer _ _ _ rfl]
        rfl
    · refine ⟨(mCache_perform_of_ne left (Ne.symm hkey)).trans hv, fun hget huri => ?_⟩
      rw [Request.op, if_pos hget] at hop
      obtain rfl := Option.some.inj hop
      exact absurd huri hkey

theorem mPath_onRequest (left : Bytes → Bytes) (s : JsonStorage) (req : Request) :
    (s.onRequest left req).2.mPath = s.mPath := by
  cases hop : req.op with
  | none => rw [onRequest_of_none left s hop]
  | some op => rw [onRequest_of_op left s hop, mPath_perform]

theorem answers_of_cached (left : Bytes → Bytes) (hpath : (securePath s.mPath uri).isSome)
    (hv : s.mCache uri = some v) (hkeeps : ∀ req ∈ reqs, req.Keeps uri) :
    ∀ p ∈ (respond (onRequest left) s reqs).1, p.1.method = ascii "GET" → p.1.uri = uri →
      p.2 = if v = [] then ⟨404, none⟩ else ⟨200, some v⟩ := by
  refine answers_of_respond (P := fun t : JsonStorage => t.mPath = s.mPath ∧ t.mCache uri = some v)
    (Q := fun (req : Request) (a : Answer) => req.method = ascii "GET" → req.uri = uri →
      a = if v = [] then ⟨404, none⟩ else ⟨200, some v⟩)
    (fun t req hreq h => ?_) (fun t req hreq h => ?_) ⟨rfl, hv⟩
  · refine ⟨(mPath_onRequest left t req).trans h.1, ?_⟩
    exact (onRequest_of_cached (h.1 ▸ hpath) h.2 (hkeeps req hreq)).1
  · exact (onRequest_of_cached (h.1 ▸ hpath) h.2 (hkeeps req hreq)).2

/-- **What a GET answers does not change.**  Whatever is put under any uri, what is cached for a uri
is what every GET of it answers with, as long as it is not deleted, and its file can be opened when
something is put there. -/
theorem gets_of_cached (hpath : (securePath s.mPath uri).isSome) (hv : s.mCache uri = some v)
    (hne : v ≠ []) (hkeeps : ∀ req ∈ reqs, req.Keeps uri) :
    ∀ p ∈ (respond (onRequest left) s reqs).1, p.1.method = ascii "GET" → p.1.uri = uri →
      p.2 = ⟨200, some v⟩ := by
  intro p hp hget huri
  rw [answers_of_cached left hpath hv hkeeps p hp hget huri, if_neg hne]

/-- **What is put is not found.**  A PUT under a uri that nothing is cached for succeeds, and all
later GETs of it are answered with status 404. -/
theorem put_hidden (hpath : (securePath s.mPath uri).isSome) (hnone : s.mCache uri = none)
    {data : Bytes} (hput : req.op = some (.add uri data true))
    (hkeeps : ∀ req ∈ reqs, req.Keeps uri) :
    (s.onRequest left req).1.statusCode = 200 ∧
      ∀ p ∈ (respond (onRequest left) (s.onRequest left req).2 reqs).1,
        p.1.method = ascii "GET" → p.1.uri = uri → p.2 = ⟨404, none⟩ := by
  obtain ⟨path, hsome⟩ := Option.isSome_iff_exists.1 hpath
  have hstep : (s.onRequest left req).1 = ⟨200, some (left [])⟩ ∧
      (s.onRequest left req).2.mCache uri = some [] := by
    rw [onRequest_of_op left s hput]
    simp [perform, addView, hsome, hnone, answer]
  refine ⟨by rw [hstep.1], ?_⟩
  have hanswers := answers_of_cached left (by rw [mPath_onRequest]; exact hpath) hstep.2
    hkeeps
  simpa using hanswers

/-- A request for the uri `/a`, with a body of one byte. -/
def request (method : String) : Request := ⟨ascii method, ascii "/a", 1, ascii "2", true, true⟩

theorem op_put : (request "PUT").op = some (.add (ascii "/a") (ascii "2") true) := by decide

theorem op_get : (request "GET").op = some (.get (ascii "/a") [] true) := by decide

/-- What is cached for it is `1`. -/
def holding : JsonStorage :=
  { new (ascii "data") fun _ => none with
    mCache := Function.update (fun _ => none) (ascii "/a") (some (ascii "1")) }

theorem keeps_put : (request "PUT").Keeps (ascii "/a") := by
  intro op hop _
  obtain rfl := Option.some.inj (op_put.symm.trans hop)
  rfl

theorem keeps_get : (request "GET").Keeps (ascii "/a") := by
  intro op hop _
  obtain rfl := Option.some.inj (op_get.symm.trans hop)
  trivial

theorem gets_of_holding :
    ((holding.onRequest (fun _ => []) (request "PUT")).2.onRequest (fun _ => [])
      (request "GET")).1 = ⟨200, some (ascii "1")⟩ := by
  have hcached : holding.mCache (ascii "/a") = some (ascii "1") := by simp [holding]
  have hkeeps : ∀ req ∈ [request "PUT", request "GET"], req.Keeps (ascii "/a") := by
    simp [keeps_put, keeps_get]
  refine @gets_of_cached _ (fun _ => []) _ _ _ (by decide) hcached (by decide) hkeeps
    (request "GET", _) ?_ rfl rfl
  simp [respond_cons]

theorem put_hidden_new :
    ((new (ascii "data") fun _ => none).onRequest (fun _ => []) (request "PUT")).1.statusCode =
        200 ∧
      ∀ p ∈ (respond (onRequest fun _ => [])
          ((new (ascii "data") fun _ => none).onRequest (fun _ => []) (request "PUT")).2
          [request "GET"]).1,
        p.1.method = ascii "GET" → p.1.uri = ascii "/a" → p.2 = ⟨404, none⟩ :=
  put_hidden (by decide) rfl op_put (by simp [keeps_get])

/-! ### What is in the files -/

theorem register_respond (left : Bytes → Bytes) (h : Apart s.mPath B)
    (hreqs : ∀ req ∈ reqs, ∀ op ∈ req.op, B op.key) (huri : B uri) :
    register s.mPath uri (respond (onRequest left) s reqs).2 =
      (respond (Register.step left) (register s.mPath uri s)
        ((reqs.filterMap Request.op).filter fun op => decide (op.key = uri))).2 := by
  rw [respond_onRequest]
  refine ((isLocal h left).respond ?_ huri rfl).2
  intro op hop
  obtain ⟨req, hreq, hsome⟩ := List.mem_filterMap.1 hop
  exact hreqs req hreq op hsome

/-- The operation leaves the file of its key. -/
def Op.Reads : Op → Prop
  | .get .. => True
  | .add _ _ opens => opens = false
  | .remove .. => False

theorem Register.file_step {e : Register} (hreads : op.Reads) :
    (e.step left op).2.file = e.file := by
  cases op with
  | get key defaultValue opens =>
    simp only [Register.step]
    repeat' split
    all_goals rfl
  | add key newData opens =>
    have hopens : opens = false := hreads
    simp [Register.step, hopens]
  | remove => exact absurd hreads id

theorem mPath_respond (left : Bytes → Bytes) (s : JsonStorage) (reqs : List Request) :
    (respond (onRequest left) s reqs).2.mPath = s.mPath :=
  invariant_of_respond (P := fun t : JsonStorage => t.mPath = s.mPath)
    (fun t req _ h => (mPath_onRequest left t req).trans h) rfl

/-- **What is put is found after a restart.**  On uris with paths of their own, a storage that is
made anew on the files answers a GET with what was put last, if it is not too large. -/
theorem get_of_restarted (h : Apart s.mPath B) {before after : List Request} {put get : Request}
    {data : Bytes} (hreqs : ∀ req ∈ before ++ put :: after, ∀ op ∈ req.op, B op.key)
    (hput : put.op = some (.add uri data true))
    (hafter : ∀ req ∈ after, ∀ op ∈ req.op, op.key = uri → op.Reads)
    (hget : get.op = some (.get uri [] true)) (hlength : data.length ≤ maxFile) :
    ((new s.mPath (respond (onRequest left) s (before ++ put :: after)).2.files).onRequest left
      get).1 = if data = [] then ⟨404, none⟩ else ⟨200, some data⟩ := by
  have huri : B uri := hreqs put (List.mem_append_right _ List.mem_cons_self) _ hput
  obtain ⟨path, hsome⟩ := Option.isSome_iff_exists.1 (h.1 uri huri)
  have hregister := register_respond left h hreqs huri
  -- the last operation on the uri that writes to its file
  have hfile : (register s.mPath uri (respond (onRequest left) s (before ++ put :: after)).2).file =
      some data := by
    rw [hregister, List.filterMap_append, List.filterMap_cons_some hput, List.filter_append,
      List.filter_cons_of_pos (by simp [Op.key]), respond_append, respond_cons]
    refine invariant_of_respond (P := fun e : Register => e.file = some data)
      (fun e op hop he => ?_) ?_
    · obtain ⟨hop, hkey⟩ := List.mem_filter.1 hop
      obtain ⟨req, hreq, hsome⟩ := List.mem_filterMap.1 hop
      rw [Register.file_step (hafter req hreq op hsome (of_decide_eq_true hkey)), he]
    · simp [Register.step]
  have hfiles : (respond (onRequest left) s (before ++ put :: after)).2.files path =
      some data := by
    rw [register, hsome, Option.bind_some] at hfile
    exact hfile
  rw [onRequest_of_op left _ hget]
  simp [perform, getView, new, hsome, hfiles, Nat.not_lt.2 hlength, answer]

theorem reads_get : ∀ req ∈ [request "GET"], ∀ op ∈ req.op, op.key = ascii "/a" →
    ∃ d opens, op = .get (ascii "/a") d opens := by
  intro req hreq op hop _
  obtain rfl := List.mem_singleton.1 hreq
  exact ⟨[], true, Option.some.inj (hop.symm.trans op_get)⟩

theorem get_of_restarted_new :
    ((new (ascii "data") (respond (onRequest fun _ => []) (new (ascii "data") fun _ => none)
      ([] ++ request "PUT" :: [request "GET"])).2.files).onRequest (fun _ => [])
      (request "GET")).1 = if ascii "2" = [] then ⟨404, none⟩ else ⟨200, some (ascii "2")⟩ := by
  have hplain : ∀ req ∈ [] ++ request "PUT" :: [request "GET"], ∀ op ∈ req.op, Plain op.key := by
    decide
  refine get_of_restarted (s := new _ fun _ => none) (apart_plain _) hplain op_put
    (fun req hreq op hop hkey => ?_) op_get (by decide)
  obtain ⟨d, opens, rfl⟩ := reads_get req hreq op hop hkey
  trivial

/-- **A DELETE brings back what was put.**  Under a uri that nothing was cached for it finds nothing
to delete, and leaves the file; so the next GET finds what was put last. -/
theorem get_of_deleted (h : Apart s.mPath B) (hnone : s.mCache uri = none)
    {put delete get : Request} {data : Bytes} {renames : Bool}
    (hreqs : ∀ req ∈ put :: reqs, ∀ op ∈ req.op, B op.key)
    (hput : put.op = some (.add uri data true))
    (hreads : ∀ req ∈ reqs, ∀ op ∈ req.op, op.key = uri → ∃ d opens, op = .get uri d opens)
    (hdelete : delete.op = some (.remove uri renames))
    (hget : get.op = some (.get uri [] true)) (hlength : data.length ≤ maxFile)
    (hne : data ≠ []) :
    ((respond (onRequest left) (respond (onRequest left) s (put :: reqs)).2 [delete, get]).1.map
      Prod.snd) = [⟨404, none⟩, ⟨200, some data⟩] := by
  have huri : B uri := hreqs put List.mem_cons_self _ hput
  obtain ⟨path, hsome⟩ := Option.isSome_iff_exists.1 (h.1 uri huri)
  have hmPath := mPath_respond left s (put :: reqs)
  have hregister := register_respond left h hreqs huri
  -- the empty contents are cached, and the new ones are in the file
  have hbehind : register s.mPath uri (respond (onRequest left) s (put :: reqs)).2 =
      ⟨some [], some data⟩ := by
    rw [hregister, List.filterMap_cons_some hput, List.filter_cons_of_pos (by simp [Op.key]),
      respond_cons]
    refine invariant_of_respond (P := fun e : Register => e = ⟨some [], some data⟩)
      (fun e op hop he => ?_) ?_
    · obtain ⟨hop, hkey⟩ := List.mem_filter.1 hop
      obtain ⟨req, hreq, hreqop⟩ := List.mem_filterMap.1 hop
      obtain ⟨d, opens, rfl⟩ := hreads req hreq op hreqop (of_decide_eq_true hkey)
      rw [he]
      rfl
    · simp [Register.step, register, hnone]
  generalize (respond (onRequest left) s (put :: reqs)).2 = t at hmPath hbehind
  obtain ⟨hcached, hfile⟩ : t.mCache uri = some [] ∧ t.files path = some data := by
    rw [register, hsome, Option.bind_some, Register.mk.injEq] at hbehind
    exact hbehind
  rw [← hmPath] at hsome
  rw [respond_cons, respond_cons, respond_nil, onRequest_of_op left t hdelete]
  have hremoved : (t.perform left (.remove uri renames)).2 =
      { t with mCache := Function.update t.mCache uri none } := by
    simp [perform, removeView, hsome, hcached]
  have hremoves : (t.perform left (.remove uri renames)).1 = .value [] := by
    simp [perform, removeView, hsome, hcached]
  rw [hremoved, hremoves, onRequest_of_op left _ hget]
  simp [perform, getView, hsome, hfile, Nat.not_lt.2 hlength, answer, hne]

theorem get_of_deleted_new :
    ((respond (onRequest fun _ => []) (respond (onRequest fun _ => [])
      (new (ascii "data") fun _ => none) [request "PUT", request "GET"]).2
      [request "DELETE", request "GET"]).1.map Prod.snd) =
    [⟨404, none⟩, ⟨200, some (ascii "2")⟩] := by
  have hdelete : (request "DELETE").op = some (.remove (ascii "/a") true) := by decide
  exact get_of_deleted (apart_plain _) rfl (by decide) op_put reads_get hdelete op_get (by decide)
    (by decide)

end JsonStorage

end Highway
