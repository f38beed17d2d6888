import BoostHttp.Request.Acceptance
import BoostHttp.Response.Acceptance

/-!
# Codings — transfer codings in one field and in several

A value of `Transfer-Encoding` is a list.  `coding` says what a list of codings amounts to; walking
through one value and reading values field by field are two ways to compute it, and they agree on
the same elements however these are distributed over fields.
-/

open Incremental

namespace BoostHttp

namespace Detail

/-! ## The elements of a value -/

def strip (e : Bytes) : Bytes := (e.dropWhile isspace).rdropWhile isspace

/-- The elements of a list that are not blank. -/
def elements (v : Bytes) : List Bytes := ((v.splitOn 0x2C).map strip).filter (· ≠ [])

theorem elements_nil : elements [] = [] := rfl

theorem elements_append (v w : Bytes) : elements (v ++ 0x2C :: w) = elements v ++ elements w := by
  unfold elements
  rw [List.splitOn_append_cons_self, List.map_append, List.filter_append]

theorem elements_single {v : Bytes} (h : 0x2C ∉ v) : elements v = [strip v].filter (· ≠ []) := by
  unfold elements
  rw [List.splitOn_eq_singleton h, List.map_singleton]

/-- Joining values with commas joins their elements. -/
theorem elements_intercalate (vs : List Bytes) :
    elements ([0x2C].intercalate vs) = vs.flatMap elements := by
  induction vs with
  | nil => rfl
  | cons v vs ih =>
    cases vs with
    | nil => simp
    | cons w vs =>
      have hcons : [0x2C].intercalate (v :: w :: vs) = v ++ 0x2C :: [0x2C].intercalate (w :: vs) := by
        simp [List.intercalate]
      rw [hcons, elements_append, ih, List.flatMap_cons (x := v)]

theorem strip_cons {c : UInt8} (hc : isspace c = true) (e : Bytes) : strip (c :: e) = strip e := by
  unfold strip
  rw [List.dropWhile_cons_of_pos hc]

theorem strip_concat {c : UInt8} (hc : isspace c = true) (e : Bytes) :
    strip (e ++ [c]) = strip e := by
  unfold strip
  rw [List.dropWhile_append]
  split
  · rename_i h
    rw [List.isEmpty_iff.mp h, List.dropWhile_cons_of_pos hc]
    rfl
  · exact List.rdropWhile_concat_pos _ _ _ hc

/-- A byte that is no comma belongs to the last segment. -/
theorem splitOn_concat {c : UInt8} (hc : c ≠ 0x2C) (v : Bytes) :
    ∃ init e, v.splitOn 0x2C = init ++ [e] ∧ (v ++ [c]).splitOn 0x2C = init ++ [e ++ [c]] := by
  have hsplit : ∀ x (w : Bytes), (x :: w).splitOn 0x2C = if x == 0x2C then [] :: w.splitOn 0x2C
      else (w.splitOn 0x2C).modifyHead (List.cons x) := fun x w =>
    List.splitOn_cons_eq_if_modifyHead x w
  induction v with
  | nil => exact ⟨[], [], rfl, List.splitOn_eq_singleton (by simpa using hc.symm)⟩
  | cons x v ih =>
    obtain ⟨init, e, h₁, h₂⟩ := ih
    rw [List.cons_append, hsplit, hsplit, h₁, h₂]
    split
    · exact ⟨[] :: init, e, rfl, rfl⟩
    · cases init with
      | nil => exact ⟨[], x :: e, rfl, rfl⟩
      | cons i init => exact ⟨(x :: i) :: init, e, rfl, rfl⟩

theorem comma_of_isspace {c : UInt8} (hc : isspace c = true) : c ≠ 0x2C := by
  rintro rfl
  cases hc

theorem elements_cons {c : UInt8} (hc : isspace c = true) (v : Bytes) :
    elements (c :: v) = elements v := by
  unfold elements
  rw [List.splitOn_cons_eq_if_modifyHead, if_neg (by simpa using comma_of_isspace hc)]
  cases h : v.splitOn 0x2C with
  | nil => rfl
  | cons e es => rw [List.modifyHead_cons, List.map_cons, List.map_cons, strip_cons hc]

theorem elements_concat {c : UInt8} (hc : isspace c = true) (v : Bytes) :
    elements (v ++ [c]) = elements v := by
  obtain ⟨init, e, h₁, h₂⟩ := splitOn_concat (comma_of_isspace hc) v
  unfold elements
  rw [h₁, h₂, List.map_append, List.map_append, List.map_singleton, List.map_singleton,
    strip_concat hc]

/-- The whitespace around a value does not matter. -/
theorem elements_trim (v : Bytes) : elements (trim v) = elements v := by
  -- whitespace in front belongs to the first element, and `elements` strips it anyway
  have hlead : ∀ w : Bytes, elements (w.dropWhile isOws) = elements w := by
    intro w
    induction w with
    | nil => rfl
    | cons c w ih =>
      rw [List.dropWhile_cons]
      split
      · rename_i hc
        rw [ih, elements_cons hc]
      · rfl
  -- and so does whitespace at the end
  have htail : ∀ w : Bytes, elements (w.rdropWhile isOws) = elements w := by
    intro w
    induction w using List.reverseRecOn with
    | nil => rfl
    | append_singleton w c ih =>
      rw [List.rdropWhile_concat]
      split
      · rename_i hc
        rw [ih, elements_concat hc]
      · rfl
  rw [trim, htail, hlead]

/-! ## Walking through a value -/

variable {τ : Type}

def walk (p : τ → Bytes → Bool × τ) : τ → List Bytes → Bool × τ
  | t, [] => (false, t)
  | t, e :: es => if (p t e).1 then (true, (p t e).2) else walk p (p t e).2 es

theorem headerValueElement_eq (p : τ → Bytes → Bool × τ) (t : τ) (e : Bytes) :
    headerValueElement p t e = if strip e = [] then (false, t) else p t (strip e) := by
  unfold headerValueElement strip
  by_cases h : e.dropWhile isspace = []
  · simp [h]
  · simp [h]

/-- The text up to the first comma is the first element, unless it is blank. -/
theorem elements_first (v : Bytes) : elements v =
    [strip (v.takeWhile (· != 0x2C))].filter (· ≠ []) ++
      elements ((v.dropWhile (· != 0x2C)).drop 1) := by
  have hmem : 0x2C ∉ v.takeWhile (· != 0x2C) := by
    intro h
    simpa using List.mem_takeWhile_imp h
  rw [← elements_single hmem]
  conv_lhs => rw [← List.takeWhile_append_dropWhile (p := (· != 0x2C)) (l := v)]
  cases h : v.dropWhile (· != 0x2C) with
  | nil => rw [List.append_nil, List.drop_nil, elements_nil, List.append_nil]
  | cons c w =>
    have hc : c = 0x2C := by simpa using not_of_dropWhile h
    rw [hc, elements_append]
    rfl

theorem walk_first (p : τ → Bytes → Bool × τ) (t : τ) (e : Bytes) (es : List Bytes) :
    walk p t ([strip e].filter (· ≠ []) ++ es) = if (headerValueElement p t e).1 then
      (true, (headerValueElement p t e).2) else walk p (headerValueElement p t e).2 es := by
  rw [headerValueElement_eq]
  by_cases h : strip e = []
  · simp [h]
  · simp [h, walk]

/-- The loop goes through the elements that are not blank. -/
theorem headerValueLoop_eq (p : τ → Bytes → Bool × τ) (fuel : Nat) (t : τ) (comma : Bytes)
    (h : comma.length < fuel) : headerValueLoop p fuel t comma = walk p t (elements comma) := by
  induction fuel generalizing t comma with
  | zero => exact absurd h (Nat.not_lt_zero _)
  | succ fuel ih =>
    rw [elements_first, walk_first, headerValueLoop]
    -- one round of the loop is one step of `walk`, over the text up to the first comma
    obtain ⟨stop, t'⟩ := headerValueElement p t (comma.takeWhile (· != 0x2C))
    cases stop with
    | true => rfl
    | false =>
      simp only [Bool.false_eq_true, if_false]
      split
      · rename_i hnil
        rw [hnil]
        rfl
      · rename_i hne
        refine ih _ _ ?_
        -- a comma was passed
        have hlen := (List.dropWhile_sublist (· != 0x2C) (l := comma)).length_le
        have hpos : (comma.dropWhile (· != 0x2C)).length ≠ 0 := by
          intro h₀
          rw [List.length_eq_zero_iff.mp h₀] at hne
          exact hne rfl
        rw [List.length_drop]
        omega

theorem headerValueAnyOf_eq (p : τ → Bytes → Bool × τ) (t : τ) (v : Bytes) :
    headerValueAnyOf p t v = walk p t (elements v) :=
  headerValueLoop_eq p _ t v (Nat.lt_succ_self _)

/-! ## What the elements amount to -/

def isChunked (e : Bytes) : Bool := iequals e (ascii "chunked")

/-- What a list of codings amounts to: chunked may be the last one only. -/
def codingOf : List Bytes → DecodeTransferEncodingResult
  | [] => .chunkedNotFound
  | e :: es =>
    if isChunked e then (if es = [] then .chunkedAtEnd else .chunkedInvalid) else codingOf es

/-- After chunked, every element is one too many. -/
theorem walk_chunked (es : List Bytes) :
    (walk transferEncodingElement ⟨1, .chunkedAtEnd⟩ es).2.res
      = if es = [] then .chunkedAtEnd else .chunkedInvalid := by
  cases es with
  | nil => rfl
  | cons e es =>
    have helement : transferEncodingElement ⟨1, .chunkedAtEnd⟩ e
        = (true, (transferEncodingElement ⟨1, .chunkedAtEnd⟩ e).2) ∧
        (transferEncodingElement ⟨1, .chunkedAtEnd⟩ e).2.res = .chunkedInvalid := by
      unfold transferEncodingElement
      cases iequals e (ascii "chunked") <;> exact ⟨rfl, rfl⟩
    rw [walk, if_pos (by rw [helement.1]), if_neg nofun]
    exact helement.2

theorem decodeTransferEncoding_eq (v : Bytes) : decodeTransferEncoding v = codingOf (elements v) := by
  unfold decodeTransferEncoding
  rw [headerValueAnyOf_eq]
  induction elements v with
  | nil => rfl
  | cons e es ih =>
    cases he : iequals e (ascii "chunked") with
    -- from the first `chunked` on the count is one, and `walk_chunked` says what is left to happen
    | true =>
      have helement : transferEncodingElement ⟨0, .chunkedNotFound⟩ e = (false, ⟨1, .chunkedAtEnd⟩) := by
        simp [transferEncodingElement, he]
      rw [walk, helement, codingOf, if_pos (show isChunked e = true from he)]
      exact walk_chunked es
    | false =>
      have helement : transferEncodingElement ⟨0, .chunkedNotFound⟩ e
          = (false, ⟨0, .chunkedNotFound⟩) := by
        simp [transferEncodingElement, he]
      have hnot : ¬ isChunked e = true := by simp [isChunked, he]
      rw [walk, helement, if_neg Bool.false_ne_true, codingOf, if_neg hnot]
      exact ih

/-- Elements before others must not be chunked. -/
theorem codingOf_append (es : List Bytes) {fs : List Bytes} (h : fs ≠ []) :
    codingOf (es ++ fs) = if codingOf es = .chunkedNotFound then codingOf fs else .chunkedInvalid := by
  induction es with
  | nil => rfl
  | cons e es ih =>
    rw [List.cons_append, codingOf, codingOf]
    cases isChunked e with
    | true => by_cases hes : es = [] <;> simp [hes, h]
    | false => exact ih

end Detail

def coding (vs : List Bytes) : Detail.DecodeTransferEncodingResult :=
  Detail.codingOf (vs.flatMap Detail.elements)

theorem coding_singleton (v : Bytes) : coding [v] = Detail.decodeTransferEncoding v := by
  rw [Detail.decodeTransferEncoding_eq, coding, List.flatMap_singleton]

theorem coding_cons {v : Bytes} {vs : List Bytes} (h : vs.flatMap Detail.elements ≠ []) :
    coding (v :: vs) = if Detail.decodeTransferEncoding v = .chunkedNotFound then coding vs
      else .chunkedInvalid := by
  rw [coding, List.flatMap_cons, Detail.codingOf_append _ h, Detail.decodeTransferEncoding_eq]
  rfl

/-- The values are joined in one field. -/
theorem coding_intercalate (vs : List Bytes) : coding [[0x2C].intercalate vs] = coding vs := by
  rw [coding, List.flatMap_singleton, Detail.elements_intercalate, coding]

theorem flatMap_elements_trim (vs : List Bytes) :
    (vs.map trim).flatMap Detail.elements = vs.flatMap Detail.elements := by
  simp only [List.flatMap_map, Detail.elements_trim]

/-- The values are read field by field. -/
theorem encoding_iff {vs : List Bytes} (hne : vs ≠ []) (hv : ∀ v ∈ vs, Detail.elements v ≠ []) :
    (ValidEncodings vs ↔ coding vs ≠ .chunkedInvalid) ∧
      (ValidEncodings vs → (endsChunked vs = true ↔ coding vs = .chunkedAtEnd)) := by
  induction vs with
  | nil => exact absurd rfl hne
  | cons v vs ih =>
    -- the last value decides; every value in front of it must not name `chunked`
    by_cases hvs : vs = []
    · subst hvs
      rw [coding_singleton]
      cases hd : Detail.decodeTransferEncoding v <;> simp [ValidEncodings, endsChunked, hd]
    -- only where an element follows is `chunked` in the first value an error
    · have helements : vs.flatMap Detail.elements ≠ [] := by
        intro h
        obtain ⟨w, hw⟩ := List.exists_mem_of_ne_nil vs hvs
        exact hv w (List.mem_cons_of_mem _ hw) (List.flatMap_eq_nil_iff.mp h w hw)
      obtain ⟨hvalid, hends⟩ := ih hvs fun w hw => hv w (List.mem_cons_of_mem _ hw)
      have hlast : endsChunked (v :: vs) = endsChunked vs := by
        unfold endsChunked
        rw [List.getLast?_cons_of_ne_nil hvs]
      rw [validEncodings_cons hvs, coding_cons helements, hlast]
      by_cases hd : Detail.decodeTransferEncoding v = .chunkedNotFound
      · simp only [hd, if_true, true_and]
        exact ⟨hvalid, hends⟩
      · simp [hd]

/-! ## Fields that carry codings -/

/-- The fields carry the values `vs` of `Transfer-Encoding`, in this order, and no length.  The
whitespace around a value is not a part of it. -/
structure Carries (vs : List Bytes) (xs : List Field) : Prop where
  encodings : encodings true xs = vs.map trim
  lengths : ∀ x ∈ xs, x.isLength = false

theorem coding_trim (vs : List Bytes) : coding (vs.map trim) = coding vs := by
  rw [coding, flatMap_elements_trim, coding]

/-- What reading the fields one by one ends with. -/
theorem Carries.read {vs : List Bytes} {xs : List Field} {n : Nat} (h : Carries vs xs)
    (hne : vs ≠ []) (hv : ∀ v ∈ vs, Detail.elements v ≠ []) :
    Mode.read true .unknown n xs = match coding vs with
      | .chunkedNotFound => some (.encoded, n)
      | .chunkedAtEnd => some (.chunked, n)
      | .chunkedInvalid => none := by
  -- no field counts the body, so only the encodings are left to decide it
  have hlengths : BoostHttp.lengths true xs = [] := by
    rw [BoostHttp.lengths, List.map_eq_nil_iff, List.filter_eq_nil_iff]
    intro x hx
    simp [h.lengths x (List.takeWhile_sublist _ |>.subset hx)]
  -- the fields carry the values trimmed, which changes no element
  have hne' : vs.map trim ≠ [] := by simpa using hne
  have hv' : ∀ v ∈ vs.map trim, Detail.elements v ≠ [] := by
    intro v hv₁
    obtain ⟨w, hw, rfl⟩ := List.mem_map.mp hv₁
    rw [Detail.elements_trim]
    exact hv w hw
  obtain ⟨hvalid, hends⟩ := encoding_iff hne' hv'
  rw [coding_trim] at hvalid hends
  have hiff : ∀ r, Mode.read true .unknown n xs = some r ↔
      ValidEncodings (vs.map trim) ∧ r = (encodedMode (vs.map trim), n) := by
    intro r
    rw [read_iff, finalMode, hlengths, h.encodings, if_neg hne']
    simp [AtMostOneNumeral]
  -- `read_iff` says when the reading succeeds; the three outcomes are read off it
  cases hc : coding vs with
  | chunkedInvalid =>
    cases hr : Mode.read true .unknown n xs with
    | none => rfl
    | some r => exact absurd hc (hvalid.mp ((hiff r).mp hr).1)
  | chunkedNotFound =>
    have hok : ValidEncodings (vs.map trim) := hvalid.mpr (by rw [hc]; simp)
    have hmode : encodedMode (vs.map trim) = .encoded := by
      refine if_neg fun he => ?_
      have hend := (hends hok).mp he
      rw [hc] at hend
      cases hend
    exact (hiff _).mpr ⟨hok, by rw [hmode]⟩
  | chunkedAtEnd =>
    have hok : ValidEncodings (vs.map trim) := hvalid.mpr (by rw [hc]; simp)
    have hmode : encodedMode (vs.map trim) = .chunked := if_pos ((hends hok).mpr hc)
    exact (hiff _).mpr ⟨hok, by rw [hmode]⟩

def codingError (o : Nat) : Event := .token o ⟨.errorInvalidTransferEncoding, 0, .none⟩

/-! ## Requests -/

namespace Request

theorem error_of_readField {v v' : Version} {m : Mode} {n : Nat} {x : Field} {c : Code}
    (hhost : hostStep v x = some v') (hlen : x.isLength = false)
    (h : policy.readField (v, bodyOf m) n x = .error c) : c = .errorInvalidTransferEncoding := by
  have hname : iequals x.name (ascii "Host") = x.isHost := rfl
  have hencoding : iequals x.name (ascii "Transfer-Encoding") = x.isEncoding := rfl
  have hlength : iequals x.name (ascii "Content-Length") = false := hlen
  unfold hostStep at hhost
  unfold Policy.readField at h
  simp only [policy, onFieldName, hname, hencoding, hlength] at h
  cases hx : x.isHost with
  | true =>
    rw [hx] at h hhost
    -- a Host field that `hostStep` accepts raises no error
    cases v <;> simp [onFieldValue_idle] at h hhost
  | false =>
    rw [hx] at h
    cases hy : x.isEncoding with
    | false =>
      rw [hy] at h
      simp [onFieldValue_idle] at h
    | true =>
      rw [hy] at h
      cases m <;> simp only [bodyOf, Bool.false_eq_true, if_false, if_true, onFieldValue] at h
      -- a second Transfer-Encoding field behind `chunked` is refused by its name already
      case chunked =>
        cases h
        rfl
      -- in the other modes the value is decoded, and is refused only as `chunkedInvalid`
      all_goals
        cases hd : Detail.decodeTransferEncoding x.value <;> rw [hd] at h <;> cases h
        rfl

/-- Without lengths and with a single `Host` field, only the encodings can be at fault. -/
theorem error_of_readFields {v v' : Version} {m : Mode} {n : Nat} {xs : List Field} {c : Code}
    (hhost : hostRead v xs = some v') (hlen : ∀ x ∈ xs, x.isLength = false)
    (h : policy.readFields (v, bodyOf m) n xs = .error c) : c = .errorInvalidTransferEncoding := by
  induction xs generalizing v m n with
  | nil => cases h
  | cons x xs ih =>
    rw [hostRead] at hhost
    cases hstep : hostStep v x with
    | none =>
      rw [hstep] at hhost
      cases hhost
    | some v₁ =>
      rw [hstep] at hhost
      have hlen' : ∀ y ∈ xs, y.isLength = false := fun y hy => hlen y (List.mem_cons_of_mem _ hy)
      rw [Policy.readFields] at h
      cases hr : policy.readField (v, bodyOf m) n x with
      | ok r =>
        obtain ⟨v₂, m₂, n₂, hv₂, -, rfl⟩ := readField_iff.mp hr
        cases hstep.symm.trans hv₂
        rw [hr] at h
        exact ih hhost hlen' h
      | error d =>
        rw [hr] at h
        cases h
        exact error_of_readField hstep (hlen x List.mem_cons_self) hr

/-- What the policy makes of the fields, by what their codings amount to. -/
theorem readFields_of_carries {vs : List Bytes} {v v' : Version} {n : Nat} {xs : List Field}
    (h : Carries vs xs) (hne : vs ≠ []) (hv : ∀ v ∈ vs, Detail.elements v ≠ [])
    (hhost : hostRead v xs = some v') :
    policy.readFields (v, .noBody) n xs = match coding vs with
      | .chunkedNotFound => .ok ((v', .randomEncodingRead), n)
      | .chunkedAtEnd => .ok ((v', .chunkedEncodingRead), n)
      | .chunkedInvalid => .error .errorInvalidTransferEncoding := by
  have hread := h.read (n := n) hne hv
  have hiff : ∀ r, policy.readFields (v, .noBody) n xs = .ok r ↔ _ := fun _ =>
    readFields_iff (m := .unknown)
  cases hc : coding vs with
  | chunkedNotFound | chunkedAtEnd =>
    rw [hc] at hread
    exact (hiff _).mpr ⟨v', _, n, hhost, hread, rfl⟩
  | chunkedInvalid =>
    rw [hc] at hread
    cases hr : policy.readFields (v, .noBody) n xs with
    | error c => rw [error_of_readFields (m := .unknown) hhost h.lengths hr]
    | ok r =>
      -- a run that succeeds would contradict `hread`
      obtain ⟨v₁, m₁, n₁, -, hm, -⟩ := (hiff r).mp hr
      rw [hread] at hm
      cases hm

/-- What is observed of a head, from offset `p` on, and of the bytes `rest` behind it, when its
codings amount to `c`.  If chunked is not among them, the error comes at the end of the headers; if
they are invalid, it comes in place of a field. -/
def Head.Shows (g : Head) (p : Nat) (rest : Bytes) (v : List Event) :
    Detail.DecodeTransferEncodingResult → Prop
  | .chunkedAtEnd => ∃ v', v = g.events p ++ v' ∧
      Framing.chunked.Describes false (p + g.bytes.length) rest v'
  | .chunkedNotFound => ∃ o, v = g.lineEvents p ++
      (blockEvents .fieldName .fieldValue (p + g.line.length) g.fields ++ [codingError o])
  | .chunkedInvalid => ∃ es o, v = es ++ [codingError o] ∧ es.any Event.isHeadEnd = false ∧
      es.countP (Event.shows .fieldValue) < g.fields.length

variable {b : Bool} {p n j : Nat} {f : Memory} {rest : Bytes} {v : List Event} {vs : List Bytes}

theorem runs_carrying (g : Head) (hf : f.2 = .noBody) (hdigit : g.digit ≠ 0x30)
    (hhost : (g.headers.filter Field.isHost).length = 1) (h : Carries vs g.headers) (hne : vs ≠ [])
    (hv : ∀ v ∈ vs, Detail.elements v ≠ [])
    (hr : lexer.Runs false p (⟨.method, f, n⟩, j) (g.bytes ++ rest) v) :
    g.Shows p rest v (coding vs) := by
  obtain ⟨v', hread, hv'⟩ := (hostRead_iff .notHttp10AndHostNotRead g.headers).mpr hhost
  have hversion : policy.onVersion f g.digit = (.notHttp10AndHostNotRead, .noBody) := by
    simp [policy, hdigit, hf]
  have hfields := readFields_of_carries (n := n) h hne hv hread
  rw [g.bytes_append] at hr
  -- the request line leaves the header block to be read
  obtain ⟨v₁, rfl, hr₁⟩ := (leads_requestLine g).split (lexer_total _ _ _ _) hr
  rw [hversion] at hr₁
  cases hc : coding vs with
  | chunkedAtEnd =>
    rw [hc] at hfields
    have hheaders : policy.headers (.notHttp10AndHostNotRead, .noBody) n g.headers
        = .ok ⟨.chunkSize, (v', .chunkedEncodingRead), n⟩ := by
      rw [Policy.headers, hfields]
      simp [policy, onHeaders, hv']
    obtain ⟨v₂, rfl, hr₂⟩ := (leads_headers g.lastEol hheaders).split (lexer_total _ _ _ _) hr₁
    refine ⟨v₂, by simp [Head.events], ?_⟩
    have hlen : p + g.bytes.length
        = p + g.line.length + (blockBytes g.fields).length + g.lastEol.bytes.length := by
      simp only [Head.bytes, List.length_append]
      omega
    rw [hlen]
    exact describes_chunked (lexer_total false) fatal_policy ⟨rfl, by simp⟩ hr₂
  | chunkedNotFound =>
    rw [hc] at hfields
    -- the block itself is read, and the line that ends it is refused
    have hend : policy.onHeaders (v', .randomEncodingRead) n
        = .error .errorInvalidTransferEncoding := by
      simp [policy, onHeaders, hv']
    exact ⟨_, congrArg _ (hr₁.unique (leads_block hfields _ (runs_headersEnd_rejected g.lastEol hend)))⟩
  | chunkedInvalid =>
    rw [hc] at hfields
    -- a field of the block is refused, and with it the rest of the block
    obtain ⟨es, o, hr₂, hes, hcount⟩ := runs_block_rejected hfields
    refine ⟨g.lineEvents p ++ es, o, ?_, ?_, ?_⟩
    · rw [hr₁.unique hr₂, List.append_assoc]
      rfl
    · rw [List.any_append, hes]
      rfl
    · have hline : (g.lineEvents p).countP (Event.shows .fieldValue) = 0 := rfl
      rw [List.countP_append, hline]
      omega

def Head.Amounts (g : Head) (c : Detail.DecodeTransferEncodingResult) : Prop :=
  ∀ (mem : Nat → UInt8) (S rest : Bytes) (version : Version) (bodySize : Nat)
    (ops₀ ops : List (Op Empty)) (s₀ : Run),
    (session mem S).play (fresh version bodySize) ops₀ = .ok s₀ →
    s₀.reader.state = .expectMethod → S.drop s₀.pass.consumed = g.bytes ++ rest →
    (session mem S).conforming (fresh version bodySize) (ops₀ ++ ops) = true →
    ∃ s log, (session mem S).play (fresh version bodySize) (ops₀ ++ ops) = .ok s ∧
      s.emitted = s₀.emitted ++ log ∧
      (complete S s = true → g.Shows s₀.pass.consumed rest (BoostHttp.events log) c)

theorem amounts_of_carries {g : Head} (hdigit : g.digit ≠ 0x30)
    (hhost : (g.headers.filter Field.isHost).length = 1) (h : Carries vs g.headers) (hne : vs ≠ [])
    (hv : ∀ v ∈ vs, Detail.elements v ≠ []) : g.Amounts (coding vs) := by
  intro mem S rest version bodySize ops₀ ops s₀ h₀ hstate hS hops
  obtain ⟨s, log, hplay, ht₀, -, hlog, -, hruns⟩ := play_adds h₀ (by rw [hstate]; nofun) hops
  refine ⟨s, log, hplay, hlog, fun hc => ?_⟩
  obtain ⟨hcore, hbody⟩ := core_method ht₀.sound hstate
  have hr := hruns hc
  rw [hcore, hS] at hr
  exact runs_carrying g hbody hdigit hhost h hne hv hr

end Request

/-! ## Responses -/

namespace Response

theorem error_of_readField {m : Mode} {n : Nat} {x : Field} {c : Code} (hlen : x.isLength = false)
    (h : policy.readField (false, bodyOf m) n x = .error c) : c = .errorInvalidTransferEncoding := by
  have hencoding : iequals x.name (ascii "Transfer-Encoding") = x.isEncoding := rfl
  have hlength : iequals x.name (ascii "Content-Length") = false := hlen
  have hforced : (bodyOf m).isForced = false := by cases m <;> rfl
  unfold Policy.readField at h
  simp only [policy, onFieldName, hencoding, hlength, hforced] at h
  cases hy : x.isEncoding with
  | false =>
    rw [hy] at h
    simp [onFieldValue_idle] at h
  | true =>
    rw [hy] at h
    cases m <;> simp [bodyOf, onFieldValue] at h
    -- refused by its name, as in a request
    case chunked => exact h.symm
    all_goals
      cases hd : Detail.decodeTransferEncoding x.value <;> rw [hd] at h <;> cases h
      rfl

theorem error_of_readFields {m : Mode} {n : Nat} {xs : List Field} {c : Code}
    (hlen : ∀ x ∈ xs, x.isLength = false)
    (h : policy.readFields (false, bodyOf m) n xs = .error c) : c = .errorInvalidTransferEncoding := by
  induction xs generalizing m n with
  | nil => cases h
  | cons x xs ih =>
    rw [Policy.readFields] at h
    cases hr : policy.readField (false, bodyOf m) n x with
    | ok r =>
      obtain ⟨m₂, n₂, -, rfl⟩ := readField_iff.mp hr
      rw [hr] at h
      exact ih (fun y hy => hlen y (List.mem_cons_of_mem _ hy)) h
    | error d =>
      rw [hr] at h
      cases h
      exact error_of_readField (hlen x List.mem_cons_self) hr

/-- What the policy makes of the fields, by what their codings amount to. -/
theorem headers_of_carries {vs : List Bytes} {n : Nat} {xs : List Field} (h : Carries vs xs)
    (hne : vs ≠ []) (hv : ∀ v ∈ vs, Detail.elements v ≠ []) :
    policy.headers (false, .connectionDelimited) n xs = match coding vs with
      | .chunkedNotFound => .ok (afterHeaders false .encoded n)
      | .chunkedAtEnd => .ok (afterHeaders false .chunked n)
      | .chunkedInvalid => .error .errorInvalidTransferEncoding := by
  have hread := h.read (n := n) hne hv
  cases hc : coding vs with
  | chunkedNotFound | chunkedAtEnd =>
    rw [hc] at hread
    exact headers_iff.mpr ⟨_, n, hread, rfl⟩
  | chunkedInvalid =>
    rw [hc] at hread
    cases hr : policy.readFields (false, .connectionDelimited) n xs with
    | error c =>
      rw [Policy.headers, hr, error_of_readFields (m := .unknown) h.lengths hr]
    | ok r =>
      obtain ⟨m₁, n₁, hm, -⟩ := (readFields_iff (m := .unknown)).mp hr
      rw [show (!false) = true from rfl, hread] at hm
      cases hm

/-- What is observed of a head, from offset `p` on, and of the bytes `rest` behind it, when its
codings amount to `c`; `b` says that the connection ends with `rest`.  If chunked is not among the
codings, the body ends with the connection. -/
def Head.Shows (g : Head) (b : Bool) (p : Nat) (rest : Bytes) (v : List Event) :
    Detail.DecodeTransferEncodingResult → Prop
  | .chunkedAtEnd => ∃ v', v = g.events p ++ v' ∧
      Framing.chunked.Describes b (p + g.bytes.length) rest v'
  | .chunkedNotFound => ∃ v', v = g.events p ++ v' ∧
      Framing.untilClose.Describes b (p + g.bytes.length) rest v'
  | .chunkedInvalid => ∃ es o, v = es ++ [codingError o] ∧ es.any Event.isHeadEnd = false

variable {methods : Nat → Bytes} {b : Bool} {p n j : Nat} {rest : Bytes} {v : List Event}
  {vs : List Bytes}

theorem runs_carrying (g : Head) (hb : ¬ Bodiless (methods j) g.code) (hdigit : g.digit ≠ 0x30)
    (h : Carries vs g.headers) (hne : vs ≠ []) (hv : ∀ v ∈ vs, Detail.elements v ≠ [])
    (hr : (lexer methods).Runs b p (⟨.versionStaticStr, (false, .unknownBody), n⟩, j)
      (g.bytes ++ rest) v) : g.Shows b p rest v (coding vs) := by
  obtain ⟨hmemory, hsize⟩ := memory_of_not_bodiless (n := n) hb
  have hversion : (g.digit == 0x30) = false := by simpa using hdigit
  rw [hversion] at hmemory
  have hheaders := headers_of_carries (n := n) h hne hv
  rw [← hmemory] at hheaders
  nth_rewrite 2 [← hsize] at hheaders
  cases hc : coding vs with
  | chunkedAtEnd =>
    rw [hc] at hheaders
    obtain ⟨v', rfl, hr'⟩ := (leads_head g hheaders).split (lexer_total _ _ _ _ _) hr
    exact ⟨v', rfl, describes_chunked (lexer_total methods b) fatal_policy ⟨rfl, nofun⟩ hr'⟩
  | chunkedNotFound =>
    rw [hc] at hheaders
    obtain ⟨v', rfl, hr'⟩ := (leads_head g hheaders).split (lexer_total _ _ _ _ _) hr
    exact ⟨v', rfl, describes_untilClose ⟨rfl, nofun⟩ rfl rfl hr'⟩
  | chunkedInvalid =>
    rw [hc] at hheaders
    obtain ⟨es, o, hr', hes⟩ := runs_head_rejected g hheaders
    exact ⟨es, o, hr.unique hr', hes⟩

/-- Every run that reads the head and what follows it, in answer to a request that allows a body,
shows that its codings amount to `c`. -/
def Head.Amounts (g : Head) (c : Detail.DecodeTransferEncodingResult) : Prop :=
  ∀ (mem : Nat → UInt8) (S rest : Bytes) (methods : Nat → Bytes) (bodySize : Nat)
    (ops₀ ops : List (Op Call)) (s₀ : Run),
    (attentiveSession mem methods S).play (fresh bodySize) ops₀ = .ok s₀ →
    s₀.reader.state = .expectVersionStaticStr → S.drop s₀.pass.consumed = g.bytes ++ rest →
    ¬ Bodiless (methods (statusCodes s₀)) g.code →
    (attentiveSession mem methods S).conforming (fresh bodySize) (ops₀ ++ ops) = true →
    ∃ s log, (attentiveSession mem methods S).play (fresh bodySize) (ops₀ ++ ops) = .ok s ∧
      s.emitted = s₀.emitted ++ log ∧ (complete mem S s = true →
        g.Shows s.reader.connection.eofReceived s₀.pass.consumed rest (BoostHttp.events log) c)

theorem amounts_of_carries {g : Head} (hdigit : g.digit ≠ 0x30) (h : Carries vs g.headers)
    (hne : vs ≠ []) (hv : ∀ v ∈ vs, Detail.elements v ≠ []) : g.Amounts (coding vs) := by
  intro mem S rest methods bodySize ops₀ ops s₀ h₀ hstate hS hb hops
  obtain ⟨s, log, hplay, ht₀, -, hlog, -, hruns⟩ := play_adds h₀ (by rw [hstate]; nofun) hops
  refine ⟨s, log, hplay, hlog, fun hc => ?_⟩
  have hr := hruns hc
  rw [hS, pending_eq ht₀.sound (by rw [hstate]; nofun), core_start ht₀.sound hstate] at hr
  exact runs_carrying g hb hdigit h hne hv hr

end Response

def exampleField (name text : String) (h : ascii name ≠ [] ∧
    (∀ c ∈ ascii name, c ∈ Alphabet.token) ∧ ∀ c ∈ ascii text, isText c = true) :
    Field := ⟨ascii name, ascii text, h.1, h.2.1, h.2.2⟩

def splitFields : List (Field × Eol) :=
  [(exampleField "Host" " a" (by decide +kernel), .crlf),
    (exampleField "Transfer-Encoding" " gzip ,," (by decide +kernel), .crlf),
    (exampleField "Via" "" (by decide +kernel), .lf),
    (exampleField "transfer-encoding" "\tChunked " (by decide +kernel), .crlf)]

def joinedFields : List (Field × Eol) :=
  [(exampleField "Host" " a" (by decide +kernel), .crlf),
    (exampleField "Transfer-Encoding" " gzip ,,,\tChunked" (by decide +kernel), .crlf)]

def Request.withFields (fields : List (Field × Eol)) : Request.Head :=
  { Request.exampleHead with fields }

def Response.withFields (fields : List (Field × Eol)) : Response.Head :=
  { Response.exampleHead with fields }

/-- Transfer codings mean the same in several fields as in one: whether the values are sent in a
field each, in this order and among any other fields but lengths, or joined with commas in one
field, every run of either reader shows what the list of all the codings amounts to. -/
theorem codings_split (vs : List Bytes) (hne : vs ≠ []) (hv : ∀ v ∈ vs, Detail.elements v ≠ []) :
    (∀ g g' : Request.Head, g.digit ≠ 0x30 → g'.digit ≠ 0x30 →
      (g.headers.filter Field.isHost).length = 1 → (g'.headers.filter Field.isHost).length = 1 →
      Carries vs g.headers → Carries [[0x2C].intercalate vs] g'.headers →
      g.Amounts (coding vs) ∧ g'.Amounts (coding vs)) ∧
    ∀ g g' : Response.Head, g.digit ≠ 0x30 → g'.digit ≠ 0x30 →
      Carries vs g.headers → Carries [[0x2C].intercalate vs] g'.headers →
      g.Amounts (coding vs) ∧ g'.Amounts (coding vs) := by
  -- the joined value has the elements of all the others
  have hjoined : ∀ v ∈ [[0x2C].intercalate vs], Detail.elements v ≠ [] := by
    intro v hmem h
    rw [List.mem_singleton.mp hmem, Detail.elements_intercalate] at h
    obtain ⟨w, hw⟩ := List.exists_mem_of_ne_nil vs hne
    exact hv w hw (List.flatMap_eq_nil_iff.mp h w hw)
  constructor
  · intro g g' hd hd' hhost hhost' h h'
    have hamounts := Request.amounts_of_carries hd' hhost' h' nofun hjoined
    rw [coding_intercalate] at hamounts
    exact ⟨Request.amounts_of_carries hd hhost h hne hv, hamounts⟩
  · intro g g' hd hd' h h'
    have hamounts := Response.amounts_of_carries hd' h' nofun hjoined
    rw [coding_intercalate] at hamounts
    exact ⟨Response.amounts_of_carries hd h hne hv, hamounts⟩

/-- Two fields with `gzip` and `chunked`, and both in one field: the requests and the responses have
a chunked body. -/
theorem codings_split_gzip :
    let rest := ascii "0\r\n\r\n"
    let asked S : List (Op Empty) := .setBuffer (List.length S) :: List.replicate 36 .next
    let answered S : List (Op Response.Call) := List.flatten [[.setBuffer (List.length S)],
      List.replicate 3 .next, [.call (.setMethod (ascii "GET"))], List.replicate 30 .next]
    let Chunked fields :=
      (let S := (Request.withFields fields).bytes ++ rest
        ∃ s, (Request.session (fun _ => 0) S).play (Request.fresh .http10 0) (asked S) = .ok s ∧
          (Request.withFields fields).Shows 0 rest (events s.emitted) .chunkedAtEnd) ∧
      let S := (Response.withFields fields).bytes ++ rest
      ∃ s, (Response.attentiveSession (fun _ => 0) (fun _ => ascii "GET") S).play (Response.fresh 0)
          (answered S) = .ok s ∧
        (Response.withFields fields).Shows s.reader.connection.eofReceived 0 rest (events s.emitted)
          .chunkedAtEnd
    Chunked splitFields ∧ Chunked joinedFields := by
  intro rest asked answered Chunked
  have hcoding : coding [ascii " gzip ,,", ascii "\tChunked"] = .chunkedAtEnd := by decide +kernel
  have hsplit : Carries [ascii " gzip ,,", ascii "\tChunked"] (splitFields.map Prod.fst) :=
    ⟨by decide +kernel, by decide +kernel⟩
  have hjoined : Carries [[0x2C].intercalate [ascii " gzip ,,", ascii "\tChunked"]]
      (joinedFields.map Prod.fst) := ⟨by decide +kernel, by decide +kernel⟩
  obtain ⟨hrequests, hresponses⟩ := codings_split [ascii " gzip ,,", ascii "\tChunked"] nofun
    (by decide +kernel)
  obtain ⟨hrequest, hrequest'⟩ := hrequests (Request.withFields splitFields)
    (Request.withFields joinedFields) (by decide) (by decide) (by decide +kernel) (by decide +kernel)
    hsplit hjoined
  obtain ⟨hresponse, hresponse'⟩ := hresponses (Response.withFields splitFields)
    (Response.withFields joinedFields) (by decide) (by decide) hsplit hjoined
  rw [hcoding] at hrequest hrequest' hresponse hresponse'
  suffices hall : ∀ fields, fields = splitFields ∨ fields = joinedFields → Chunked fields from
    ⟨hall _ (.inl rfl), hall _ (.inr rfl)⟩
  intro fields hfields
  constructor
  · have hamounts : (Request.withFields fields).Amounts .chunkedAtEnd := by
      rcases hfields with rfl | rfl
      · exact hrequest
      · exact hrequest'
    intro S
    have hconforming : (Request.session (fun _ => 0) S).conforming (Request.fresh .http10 0) (asked S)
        = true := by
      rcases hfields with rfl | rfl <;> decide +kernel
    have hcomplete : (Request.session (fun _ => 0) S).ends (Request.fresh .http10 0) (asked S)
        (Request.complete S) = true := by
      rcases hfields with rfl | rfl <;> decide +kernel
    obtain ⟨s, log, hplay, hlog, hshows⟩ := hamounts (fun _ => 0) S rest .http10 0 [] (asked S)
      (Request.fresh .http10 0) rfl rfl rfl hconforming
    have hplay : (Request.session (fun _ => 0) S).play (Request.fresh .http10 0) (asked S) = .ok s := hplay
    rw [Guarded.ends_eq hplay] at hcomplete
    have hlog : s.emitted = log := hlog
    exact ⟨s, hplay, hlog ▸ hshows hcomplete⟩
  · have hamounts : (Response.withFields fields).Amounts .chunkedAtEnd := by
      rcases hfields with rfl | rfl
      · exact hresponse
      · exact hresponse'
    intro S
    have hconforming : (Response.attentiveSession (fun _ => 0) (fun _ => ascii "GET") S).conforming
        (Response.fresh 0) (answered S) = true := by
      rcases hfields with rfl | rfl <;> decide +kernel
    have hcomplete : (Response.attentiveSession (fun _ => 0) (fun _ => ascii "GET") S).ends
        (Response.fresh 0) (answered S) (Response.complete (fun _ => 0) S) = true := by
      rcases hfields with rfl | rfl <;> decide +kernel
    have hbody : ¬ Response.Bodiless (ascii "GET") (Response.withFields fields).code := by
      change ¬ Response.Bodiless (ascii "GET") Response.exampleHead.code
      decide +kernel
    obtain ⟨s, log, hplay, hlog, hshows⟩ := hamounts (fun _ => 0) S rest (fun _ => ascii "GET") 0 []
      (answered S) (Response.fresh 0) rfl rfl rfl hbody hconforming
    have hplay : (Response.attentiveSession (fun _ => 0) (fun _ => ascii "GET") S).play
        (Response.fresh 0) (answered S) = .ok s := hplay
    rw [Guarded.ends_eq hplay] at hcomplete
    have hlog : s.emitted = log := hlog
    exact ⟨s, hplay, hlog ▸ hshows hcomplete⟩

end BoostHttp
