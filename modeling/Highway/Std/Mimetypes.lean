import Highway.Std.Views

/-!
# The MIME type of a file

`hiw_mimetype_from_filename` compares the part of a file name from its last dot on with the
extensions that it knows.  For a name without a dot `hiw_string_suffix` returns the whole name,
and for a name of one byte it returns nothing; neither is an extension, so the lookup decides by
what the name ends with (`mimetypeFromFilename_byExtension`).  Two extensions share `image/jpeg`.
-/

namespace Highway

open Lib

/-- `hiw_mimetypes_s` -/
structure HiwMimetypes where
  textCss : Bytes
  textHtml : Bytes
  textJavascript : Bytes
  textPlain : Bytes
  imageJpeg : Bytes
  imagePng : Bytes
  applicationJson : Bytes
  applicationOctetStream : Bytes

/-- `hiw_mimetypes` -/
def hiwMimetypes : HiwMimetypes where
  textCss := ascii "text/css"
  textHtml := ascii "text/html"
  textJavascript := ascii "text/javascript"
  textPlain := ascii "text/plain"
  imageJpeg := ascii "image/jpeg"
  imagePng := ascii "image/png"
  applicationJson := ascii "application/json"
  applicationOctetStream := ascii "application/octet-stream"

/-- `hiw_mimetype_from_suffix` -/
def mimetypeFromSuffix (suffix : Bytes) : Bytes :=
  if HiwString.cmp suffix (ascii ".css") then hiwMimetypes.textCss
  else if HiwString.cmp suffix (ascii ".html") then hiwMimetypes.textHtml
  else if HiwString.cmp suffix (ascii ".js") then hiwMimetypes.textJavascript
  else if HiwString.cmp suffix (ascii ".txt") then hiwMimetypes.textPlain
  else if HiwString.cmp suffix (ascii ".jpg") then hiwMimetypes.imageJpeg
  else if HiwString.cmp suffix (ascii ".jpeg") then hiwMimetypes.imageJpeg
  else if HiwString.cmp suffix (ascii ".png") then hiwMimetypes.imagePng
  else if HiwString.cmp suffix (ascii ".json") then hiwMimetypes.applicationJson
  else hiwMimetypes.applicationOctetStream

/-- `hiw_mimetype_from_filename` -/
def mimetypeFromFilename (m : Buf) (filename : HiwString) : Bytes :=
  mimetypeFromSuffix ((HiwString.suffix m filename 46).reads m)

/-- The extensions with the types that are registered for them. -/
def registered : List (Bytes × Bytes) :=
  [(ascii ".css", hiwMimetypes.textCss), (ascii ".html", hiwMimetypes.textHtml),
    (ascii ".js", hiwMimetypes.textJavascript), (ascii ".txt", hiwMimetypes.textPlain),
    (ascii ".jpg", hiwMimetypes.imageJpeg), (ascii ".jpeg", hiwMimetypes.imageJpeg),
    (ascii ".png", hiwMimetypes.imagePng), (ascii ".json", hiwMimetypes.applicationJson)]

variable {m : Buf} {s : HiwString} {d : UInt8} {b t : Bytes}

namespace HiwString

theorem exists_reads_suffix (hlen : 2 ≤ s.length) (hmem : d ∈ s.reads m) :
    ∃ front rest, d ∉ rest ∧ s.reads m = front ++ d :: rest ∧
      (suffix m s d).reads m = d :: rest := by
  obtain ⟨k, hk, hsuffix, hat, hrest⟩ : ∃ k < s.length, suffix m s d =
      ⟨s.begin + k, s.length - k⟩ ∧ m (s.begin + k) = d ∧
        d ∉ m.bytes (s.begin + k + 1) (s.length - (k + 1)) := by
    have h := isSuffix_of_mem hlen hmem
    rwa [IsSuffix, if_pos ⟨hlen, hmem⟩] at h
  refine ⟨m.bytes s.begin k, _, hrest, ?_, ?_⟩
  · rw [reads, Buf.bytes_split hk, hat]
  · rw [hsuffix, reads]
    simp only
    rw [show s.length - k = s.length - (k + 1) + 1 by omega, Buf.bytes_succ, hat]

/-- `hiw_string_suffix` returns a suffix if and only if the string ends with it. -/
theorem reads_suffix_eq_iff {w : Bytes} (hw : w ≠ []) (hd : d ∉ w) :
    (suffix m s d).reads m = d :: w ↔ d :: w <:+ s.reads m := by
  have hpos := List.length_pos_iff.2 hw
  rcases Nat.lt_or_ge s.length 2 with hlen | hlen
  · -- the string is too short
    have hempty : suffix m s d = empty := by rw [suffix, if_pos (by omega)]
    refine iff_of_false ?_ fun hends => ?_
    · rw [hempty, reads_empty]
      exact (List.cons_ne_nil _ _).symm
    · have hle := hends.length_le
      rw [List.length_cons, length_reads] at hle
      omega
  by_cases hmem : d ∈ s.reads m
  · obtain ⟨front, rest, hrest, hsplit, hread⟩ := exists_reads_suffix hlen hmem
    rw [hread, hsplit, cons_suffix_iff hrest hd]
    exact ⟨fun h => (List.cons.inj h).2.symm, fun h => by rw [h]⟩
  · -- a string without a delimiter neither is the suffix nor ends with it
    rw [suffix_of_not_mem hlen hmem]
    refine iff_of_false (fun h => hmem ?_) fun h => hmem (h.subset List.mem_cons_self)
    rw [h]
    exact List.mem_cons_self

end HiwString

/-- Every extension is a dot with something behind it that has no dot. -/
theorem exists_of_registered : ∀ p ∈ registered, ∃ w, p.1 = 46 :: w ∧ w ≠ [] ∧ 46 ∉ w := by
  have hshape : ∀ p ∈ registered, p.1 = 46 :: p.1.tail ∧ p.1.tail ≠ [] ∧ 46 ∉ p.1.tail := by
    decide
  exact fun p hp => ⟨_, hshape p hp⟩

theorem mimetypeFromSuffix_of_mem : ∀ p ∈ registered, mimetypeFromSuffix p.1 = p.2 := by decide

theorem mimetypeFromSuffix_of_not_mem (h : ∀ p ∈ registered, b ≠ p.1) :
    mimetypeFromSuffix b = hiwMimetypes.applicationOctetStream := by
  simp only [registered, List.forall_mem_cons] at h
  simp [mimetypeFromSuffix, HiwString.cmp_eq, h]

theorem mimetypeFromFilename_of_suffix {p : Bytes × Bytes} (hp : p ∈ registered)
    (h : p.1 <:+ s.reads m) : mimetypeFromFilename m s = p.2 := by
  obtain ⟨w, hw, hne, hdot⟩ := exists_of_registered p hp
  rw [hw, ← HiwString.reads_suffix_eq_iff hne hdot, ← hw] at h
  rw [mimetypeFromFilename, h, mimetypeFromSuffix_of_mem p hp]

theorem mimetypeFromFilename_of_forall_not (h : ∀ p ∈ registered, ¬ p.1 <:+ s.reads m) :
    mimetypeFromFilename m s = hiwMimetypes.applicationOctetStream := by
  refine mimetypeFromSuffix_of_not_mem fun p hp heq => h p hp ?_
  obtain ⟨w, hw, hne, hdot⟩ := exists_of_registered p hp
  rw [hw] at heq ⊢
  exact (HiwString.reads_suffix_eq_iff hne hdot).1 heq

theorem ne_octetStream_of_mem :
    ∀ p ∈ registered, p.2 ≠ hiwMimetypes.applicationOctetStream := by decide

theorem eq_of_mem_registered : ∀ p ∈ registered, p.2 ≠ hiwMimetypes.imageJpeg →
    ∀ q ∈ registered, q.2 = p.2 → q = p := by decide

theorem jpeg_of_mem_registered : ∀ p ∈ registered, p.2 = hiwMimetypes.imageJpeg →
    p.1 = ascii ".jpg" ∨ p.1 = ascii ".jpeg" := by decide

/-- A registered type is that of an extension. -/
theorem mimetypeFromFilename_eq_iff (ht : t ≠ hiwMimetypes.applicationOctetStream) :
    mimetypeFromFilename m s = t ↔ ∃ p ∈ registered, p.2 = t ∧ p.1 <:+ s.reads m := by
  constructor
  · intro h
    by_cases hends : ∃ p ∈ registered, p.1 <:+ s.reads m
    · obtain ⟨p, hp, hend⟩ := hends
      exact ⟨p, hp, (mimetypeFromFilename_of_suffix hp hend).symm.trans h, hend⟩
    · have hdefault := mimetypeFromFilename_of_forall_not fun p hp hend => hends ⟨p, hp, hend⟩
      exact absurd (h.symm.trans hdefault) ht
  · rintro ⟨p, hp, rfl, hends⟩
    exact mimetypeFromFilename_of_suffix hp hends

/-- What the lookup is to do, by the end of the file name. -/
structure ByExtension (m : Buf) (filename : HiwString) : Prop where
  /-- An extension with a type of its own. -/
  own : ∀ p ∈ registered, p.2 ≠ hiwMimetypes.imageJpeg →
    (mimetypeFromFilename m filename = p.2 ↔ p.1 <:+ filename.reads m)
  jpeg : mimetypeFromFilename m filename = hiwMimetypes.imageJpeg ↔
    ascii ".jpg" <:+ filename.reads m ∨ ascii ".jpeg" <:+ filename.reads m
  other : mimetypeFromFilename m filename = hiwMimetypes.applicationOctetStream ↔
    ∀ p ∈ registered, ¬ p.1 <:+ filename.reads m

/-- **The lookup decides by the end of the file name.** -/
theorem mimetypeFromFilename_byExtension (m : Buf) (filename : HiwString) :
    ByExtension m filename := by
  refine ⟨fun p hp hown => ?_, ?_, ?_⟩
  · rw [mimetypeFromFilename_eq_iff (ne_octetStream_of_mem p hp)]
    constructor
    · rintro ⟨q, hq, htype, hends⟩
      rwa [eq_of_mem_registered p hp hown q hq htype] at hends
    · exact fun hends => ⟨p, hp, rfl, hends⟩
  · rw [mimetypeFromFilename_eq_iff (by decide)]
    constructor
    · rintro ⟨q, hq, htype, hends⟩
      rcases jpeg_of_mem_registered q hq htype with hext | hext
      · exact .inl (hext ▸ hends)
      · exact .inr (hext ▸ hends)
    · rintro (hends | hends)
      · exact ⟨(ascii ".jpg", hiwMimetypes.imageJpeg), by decide, rfl, hends⟩
      · exact ⟨(ascii ".jpeg", hiwMimetypes.imageJpeg), by decide, rfl, hends⟩
  · constructor
    · intro h p hp hends
      exact ne_octetStream_of_mem p hp ((mimetypeFromFilename_of_suffix hp hends).symm.trans h)
    · exact mimetypeFromFilename_of_forall_not

/-- The name `a.jpeg`, which does not end with `.jpg`. -/
theorem not_ends_with_extension : ¬ ∀ (m : Buf) (filename : HiwString), ∀ p ∈ registered,
    (mimetypeFromFilename m filename = p.2 ↔ p.1 <:+ filename.reads m) := by
  intro hall
  have hjpg := hall (Buf.write (fun _ => 0) 0 (ascii "a.jpeg")) ⟨0, 6⟩
    (ascii ".jpg", hiwMimetypes.imageJpeg) (by decide)
  exact absurd (hjpg.1 (by decide)) (by decide)

end Highway
