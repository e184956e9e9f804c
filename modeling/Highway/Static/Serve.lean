import Highway.Servlet.Reply
import Highway.Static.Cache

/-!
# The static server

`on_request` answers from the cache: with the first of its files whose uri is the one of the
request, or with status 404.

`StaticCache.wire_of_directory` : a client gets, for the requests on its connection, what is in the
directory.
-/

namespace Highway

open Lib

namespace StaticCache

/-- `on_request` -/
def onRequest (c : StaticCache) (req : HiwRequest) : Servlet :=
  match c.content.find? fun e => HiwString.cmp (e.uri.reads c.memory.block) req.head.uri with
  | some e =>
    .respond (.setStatusCode 200) fun _ =>
    .respond (.setContentLength e.length) fun _ =>
    .respond (.setContentType e.mimeType) fun _ =>
    .respond (.writeBodyRaw (c.memory.block.bytes e.memory e.length) e.length) fun _ => .done
  | none =>
    .respond (.setStatusCode 404) fun _ =>
    .respond (.setContentLength 23) fun _ =>
    .respond (.setContentType hiwMimetypes.textPlain) fun _ =>
    .respond (.writeBodyRaw (ascii "could not find resource") 23) fun _ => .done

/-- What is answered where there is no file. -/
def notFound : Reply := ⟨404, ascii "text/plain", ascii "could not find resource"⟩

/-- What is answered when these are the files. -/
def answer (files : List Cached) (uri : Bytes) : Reply :=
  match files.find? fun f => f.uri = uri with
  | some f => ⟨200, f.mimeType, f.body⟩
  | none => notFound

variable {cfg : Config} {env : StaticEnv} {c : StaticCache} {cached : List Cached} {f : Cached}
  {uri path : Bytes}

theorem onRequest_eq (c : StaticCache) : c.onRequest = Reply.serve (answer c.view) := by
  funext req
  have hfind : (c.view.find? fun f => f.uri = req.head.uri) =
      (c.content.find? fun e => HiwString.cmp (e.uri.reads c.memory.block) req.head.uri).map
        fun e => ⟨e.uri.reads c.memory.block, e.mimeType,
          c.memory.block.bytes e.memory e.length⟩ := by
    rw [view, List.find?_map]
    congr 2
    funext e
    exact (HiwString.cmp_eq _ _).symm
  rw [onRequest, Reply.serve, answer, hfind]
  cases c.content.find? fun e => HiwString.cmp (e.uri.reads c.memory.block) req.head.uri with
  | none => rfl
  | some e =>
    rw [Option.map_some]
    simp only [Reply.program, Buf.length_bytes]

theorem mem_of_find (h : (cached.find? fun f => f.uri = uri) = some f) :
    f ∈ cached ∧ f.uri = uri :=
  ⟨List.mem_of_find?_eq_some h, by simpa using List.find?_some h⟩

/-! ### The replies fit -/

/-- What the heads of the replies take. -/
def headSize : ℕ := 160

theorem length_mimetypeFromFilename (m : Buf) (s : HiwString) :
    (mimetypeFromFilename m s).length ≤ 24 := by
  unfold mimetypeFromFilename mimetypeFromSuffix
  split_ifs <;> decide

theorem length_head_le {a : Reply} (cfg : Config) (close : Bool)
    (hstatus : a.statusCode = 200 ∨ a.statusCode = 404) (htype : a.mimeType.length ≤ 24)
    (hbody : a.body.length < 2 ^ 31) : (a.fields cfg close).head.length ≤ headSize := by
  have hline : (ascii (HiwResponse.statusText a.statusCode)).length ≤ 13 := by
    rcases hstatus with h | h <;> rw [h] <;> decide
  have hlength : (decimal a.body.length).length ≤ 10 := length_decimal_le (by decide) (by omega)
  have hconnection : (HiwResponse.connectionValue close).length ≤ 10 := by
    cases close <;> decide
  have hname : (HiwResponse.serverHeaderName cfg).length ≤ 11 := by
    unfold HiwResponse.serverHeaderName
    split_ifs <;> decide
  have hvalue : (HiwResponse.serverHeaderValue cfg).length ≤ 13 := by
    unfold HiwResponse.serverHeaderValue
    split_ifs <;> decide
  have hconst : (ascii "HTTP/1.1 ").length = 9 ∧ (ascii ": ").length = 2 ∧
      (ascii "Content-Length").length = 14 ∧ (ascii "Content-Type").length = 12 ∧
      (ascii "Connection").length = 10 ∧ HiwResponse.crlf.length = 2 := by decide
  obtain ⟨h₁, h₂, h₃, h₄, h₅, h₆⟩ := hconst
  unfold ResponseFields.head Reply.fields headSize
  simp only
  split_ifs <;> simp only [List.cons_append, List.nil_append, List.append_nil, List.flatMap_cons,
    List.flatMap_nil, List.length_append] <;> omega

/-- A file of the cache as it is needed for a reply. -/
structure Cached.Small (f : Cached) : Prop where
  mimeType : f.mimeType.length ≤ 24
  body_ne : f.body ≠ []
  body_le : f.body.length ≤ cacheSize

theorem suits_answer (hcached : ∀ f ∈ cached, f.Small) (hsize : headSize ≤ cfg.maxHeaderSize)
    (hcount : 4 ≤ cfg.maxHeadersCount) (uri : Bytes) :
    ChainState.Suits cfg (answer cached uri) cacheSize := by
  have hbounds : ((answer cached uri).statusCode = 200 ∨ (answer cached uri).statusCode = 404) ∧
      (answer cached uri).mimeType.length ≤ 24 ∧ (answer cached uri).body ≠ [] ∧
      (answer cached uri).body.length ≤ cacheSize := by
    unfold answer
    cases hfind : cached.find? fun f => f.uri = uri with
    | none => exact ⟨.inr rfl, by decide, by decide, by decide⟩
    | some f =>
      obtain ⟨htype, hne, hle⟩ := hcached f (mem_of_find hfind).1
      exact ⟨.inl rfl, htype, hne, hle⟩
  obtain ⟨hstatus, htype, hne, hle⟩ := hbounds
  have hlt : (answer cached uri).body.length < 2 ^ 31 := Nat.lt_of_le_of_lt hle (by decide)
  have hhead := length_head_le cfg false hstatus htype hlt
  refine ⟨⟨?_, hne, hlt, Nat.le_trans hhead hsize, hcount⟩, Nat.le_trans hhead (by decide), hle⟩
  rcases hstatus with h | h <;> rw [h] <;> decide

/-! ### From the directory to the client -/

section

open HiwFile

variable {root : CString} {entries : Entries}

theorem space_le_spaces (env : StaticEnv) (baseDir : Bytes) {paths : List Bytes}
    (h : path ∈ paths) :
    space env baseDir path ≤ spaces env baseDir paths :=
  List.single_le_sum (fun _ _ => Nat.zero_le _) _ (List.mem_map_of_mem h)

theorem cachedOf_eq_some {baseDir : Bytes} (h : cachedOf env baseDir path = some f) :
    ∃ contents, env.fopen path = some contents ∧ contents.val ≠ [] ∧
      f = ⟨path.drop baseDir.length, mimetypeOf (path.drop baseDir.length), contents⟩ := by
  unfold cachedOf at h
  split at h
  · cases h
  · split_ifs at h with hne
    exact ⟨_, ‹_›, hne, (Option.some.inj h).symm⟩

theorem small_of_mem {paths : List Bytes} {baseDir : Bytes}
    (hle : spaces env baseDir paths ≤ cacheSize)
    (hf : f ∈ paths.filterMap (cachedOf env baseDir)) : f.Small := by
  obtain ⟨path, hpath, hcached⟩ := List.mem_filterMap.1 hf
  obtain ⟨contents, hopen, hne, rfl⟩ := cachedOf_eq_some hcached
  refine ⟨length_mimetypeFromFilename _ _, hne, ?_⟩
  have hspace := space_le_spaces env baseDir hpath
  rw [space_of_some hopen] at hspace
  exact Nat.le_trans (Nat.le_trans (Nat.le_add_left _ _) hspace) hle

/-- What a request is answered with, from the directory. -/
def served (env : StaticEnv) (root : Bytes) (entries : Entries) (uri : Bytes) : Reply :=
  match env.fopen (root ++ uri) with
  | some contents =>
    if root ++ uri ∈ filePaths root entries ∧ contents.val ≠ [] then
      ⟨200, mimetypeOf uri, contents⟩
    else notFound
  | none => notFound

/-- The uri of a file in the cache is its path below the directory. -/
theorem answer_eq_served (env : StaticEnv) (root : CString) (entries : Entries) (uri : Bytes) :
    answer ((filePaths root entries).filterMap (cachedOf env root)) uri =
      served env root entries uri := by
  -- a file with the uri is the one at this path
  have hfound : ∀ f ∈ (filePaths root entries).filterMap (cachedOf env root), f.uri = uri →
      ∃ contents, env.fopen (root ++ uri) = some contents ∧
        root.val ++ uri ∈ filePaths root entries ∧ contents.val ≠ [] ∧
        f = ⟨uri, mimetypeOf uri, contents⟩ := by
    intro f hf huri
    obtain ⟨path, hpath, hcached⟩ := List.mem_filterMap.1 hf
    obtain ⟨contents, hopen, hne, rfl⟩ := cachedOf_eq_some hcached
    obtain ⟨⟨tail, rfl⟩, -⟩ := path_of_mem_filePaths root.property hpath
    rw [List.drop_left] at huri ⊢
    obtain rfl : tail = uri := huri
    exact ⟨contents, hopen, hpath, hne, rfl⟩
  unfold answer served
  cases hfind : ((filePaths root entries).filterMap (cachedOf env root)).find?
      fun f => f.uri = uri with
  | some f =>
    obtain ⟨hf, huri⟩ := mem_of_find hfind
    obtain ⟨contents, hopen, hpath, hne, rfl⟩ := hfound f hf huri
    simp only [hopen]
    rw [if_pos ⟨hpath, hne⟩]
  | none =>
    simp only
    split
    · rename_i contents hopen
      refine (if_neg fun ⟨hpath, hne⟩ => ?_).symm
      have hcached : cachedOf env root (root ++ uri) = some ⟨uri, mimetypeOf uri, contents⟩ := by
        rw [cachedOf_of_some hopen, if_neg hne, List.drop_left]
      have hmem := List.mem_filterMap.2 ⟨_, hpath, hcached⟩
      exact absurd (List.find?_eq_none.1 hfind _ hmem) (by simp)
    · rfl

/-- **The directory on the wire.**  For a directory that fits into the cache, the client gets a
reply to each of its requests: the file whose path is the directory with the uri behind it, as it
was when the server started. -/
theorem wire_of_directory (h : Readable env root entries) (hrealloc : ∀ k, env.realloc k = true)
    (hle : spaces env root (filePaths root entries) ≤ cacheSize) (ptr : ℕ) (block path : Buf)
    (hsize : headSize ≤ cfg.maxHeaderSize) (hcount : 4 ≤ cfg.maxHeadersCount) {s : ChainState}
    {ms : List Message} (hs : s.Ready cfg) (hp : s.phase = .retry)
    (hm : ∀ m ∈ ms, ChainState.Plain cfg m)
    (hin : s.client.incoming = ms.map fun m => .data m.bytes)
    (htakes : s.client.Takes (2 * ms.length) cacheSize) :
    ∃ c, init env root ptr block path = some (true, c) ∧
      ∃ t, Visited (ChainState.iterate cfg c.onRequest) ChainState.final s t ∧ t.phase = .closed ∧
        t.client.wire = s.client.wire ++
          ms.flatMap fun m => (served env root entries m.uri).bytes cfg false := by
  obtain ⟨c, hinit, -, hview⟩ := exists_init h hle ptr block path
  obtain ⟨t, hv, ht, hwire⟩ := ChainState.wire_of_replies hs hp hm hin
    (fun m _ => suits_answer (fun f hf => small_of_mem hle hf) hsize hcount m.uri) htakes
  rw [← hview hrealloc, ← onRequest_eq] at hv
  refine ⟨c, hinit, t, hv, ht, hwire.trans ?_⟩
  simp only [answer_eq_served]

/-- A request for `f`. -/
def fileMessage : Message :=
  { ChainState.getMessage with uri := ascii "/d/f", uri_visible := by decide +kernel }

/-- A client that asks for `f`, for something else, and for `f` again. -/
def askingTwice : HiwClient where
  incoming := [fileMessage, ChainState.getMessage, fileMessage].map fun m => .data m.bytes
  outgoing := List.replicate 6 (.accept cacheSize)

theorem plain_fileMessage : ChainState.Plain .default fileMessage :=
  ⟨rfl, by decide +kernel, by decide⟩

theorem wire_of_twoFiles : ∃ c,
    init twoFilesEnv [114] 0 (fun _ => 0) (fun _ => 255) = some (true, c) ∧
      ∃ t, Visited (ChainState.iterate .default c.onRequest) ChainState.final
          (.start (.init .default fun _ => 0) (fun _ => 0) askingTwice) t ∧
        t.phase = .closed ∧
        t.client.wire =
          Reply.bytes .default ⟨200, ascii "application/octet-stream", ascii "hi"⟩ false ++
            (Reply.bytes .default notFound false ++
              Reply.bytes .default ⟨200, ascii "application/octet-stream", ascii "hi"⟩ false) := by
  obtain ⟨c, hinit, t, hv, ht, hwire⟩ := @wire_of_directory .default twoFilesEnv
    ⟨[114], by decide⟩ twoFiles readable_twoFiles (fun _ => rfl) (by decide) 0 (fun _ => 0)
    (fun _ => 255) (by decide) (by decide)
    (.start (.init .default fun _ => 0) (fun _ => 0) askingTwice)
    [fileMessage, ChainState.getMessage, fileMessage] ⟨rfl, rfl⟩ rfl
    (by simpa using ⟨plain_fileMessage, ⟨rfl, by decide +kernel, by decide⟩, plain_fileMessage⟩)
    rfl
    ⟨by decide, fun e he => ⟨cacheSize, List.eq_of_mem_replicate he, le_rfl⟩⟩
  have hfile : served twoFilesEnv [114] twoFiles fileMessage.uri =
      ⟨200, ascii "application/octet-stream", ascii "hi"⟩ := rfl
  have hother : served twoFilesEnv [114] twoFiles ChainState.getMessage.uri = notFound := rfl
  refine ⟨c, hinit, t, hv, ht, hwire.trans ?_⟩
  simp only [List.flatMap_cons, List.flatMap_nil, hfile, hother]
  rfl

end

end StaticCache

end Highway
