import BoostHttp.Codings

/-!
# Lists — `header_value_any_of` on its iterators

The reader sees a list as segments between commas.  The source walks over it with iterators: it looks
for the next comma, then from both sides for the value, and passes the comma by hand.  Here an
iterator is an offset into the view, and following it outside of the view is no result at all.
-/

namespace BoostHttp

namespace Detail

variable {τ : Type}

/-! ## Iterators -/

namespace Iterator

def findIfNot (p : UInt8 → Bool) (v : Bytes) : Nat → Nat → Nat → Option Nat
  | 0, _, _ => none
  | fuel + 1, first, last =>
    if first = last then some first
    else match v[first]? with
      | none => none
      | some c => if p c then findIfNot p v fuel (first + 1) last else some first

def find (v : Bytes) (fuel first last : Nat) (c : UInt8) : Option Nat :=
  findIfNot (· != c) v fuel first last

/-- `find_if_not(reverse_iterator(last), reverse_iterator(first), p).base()`.  A reverse iterator
stands behind the byte it refers to. -/
def findIfNotReverse (p : UInt8 → Bool) (v : Bytes) : Nat → Nat → Nat → Option Nat
  | 0, _, _ => none
  | fuel + 1, last, first =>
    if last = first then some last
    else if last = 0 then none
    else match v[last - 1]? with
      | none => none
      | some c => if p c then findIfNotReverse p v fuel (last - 1) first else some last

/-- The body of the `do` loop, once `next_comma` is known. -/
def headerValueElement (p : τ → Bytes → Bool × τ) (v : Bytes) (fuel : Nat) (t : τ)
    (comma nextComma : Nat) : Option (Bool × τ) :=
  (findIfNot isspace v fuel comma nextComma).bind fun valueBegin =>
    if valueBegin ≠ nextComma then
      (findIfNotReverse isspace v fuel nextComma valueBegin).bind fun valueEnd =>
        if valueBegin ≠ valueEnd then
          some (p t ((v.drop valueBegin).take (valueEnd - valueBegin)))
        else some (false, t)
    else some (false, t)

def headerValueLoop (p : τ → Bytes → Bool × τ) (v : Bytes) : Nat → τ → Nat → Option (Bool × τ)
  | 0, _, _ => none
  | fuel + 1, t, comma =>
    (find v (fuel + 1) comma v.length 0x2C).bind fun nextComma =>
      (headerValueElement p v (fuel + 1) t comma nextComma).bind fun (stop, t) =>
        if stop then some (true, t)
        else
          let comma := if nextComma ≠ v.length then nextComma + 1 else nextComma
          if comma ≠ v.length then headerValueLoop p v fuel t comma else some (false, t)

def headerValueAnyOf (p : τ → Bytes → Bool × τ) (fuel : Nat) (t : τ) (headerValue : Bytes) :
    Option (Bool × τ) :=
  headerValueLoop p headerValue fuel t 0

/-- `decode_transfer_encoding`.  The predicate is copied and refers to the state. -/
def decodeTransferEncoding (fuel : Nat) (field : Bytes) : Option DecodeTransferEncodingResult :=
  (headerValueAnyOf transferEncodingElement fuel ⟨0, .chunkedNotFound⟩ field).map (·.2.res)

example : decodeTransferEncoding 17 (ascii " gzip ,, Chunked") = some .chunkedAtEnd := by decide

theorem findIfNot_eq (p : UInt8 → Bool) (a b c : Bytes) {fuel : Nat} (h : b.length < fuel) :
    findIfNot p (a ++ b ++ c) fuel a.length (a.length + b.length)
      = some (a.length + (b.takeWhile p).length) := by
  induction b generalizing a fuel with
  | nil =>
    obtain ⟨fuel, rfl⟩ : ∃ f, fuel = f + 1 := ⟨fuel - 1, by omega⟩
    rw [findIfNot, if_pos (show a.length = a.length + ([] : Bytes).length from rfl)]
    rfl
  | cons x b ih =>
    rw [List.length_cons] at h ⊢
    obtain ⟨fuel, rfl⟩ : ∃ f, fuel = f + 1 := ⟨fuel - 1, by omega⟩
    have hget : (a ++ x :: b ++ c)[a.length]? = some x := by simp
    have hne : a.length ≠ a.length + (b.length + 1) := by omega
    rw [findIfNot, if_neg hne, hget]
    by_cases hx : p x = true
    · have hsplit : a ++ x :: b ++ c = a ++ [x] ++ b ++ c := by simp
      have hih := ih (a ++ [x]) (show b.length < fuel by omega)
      rw [← hsplit, List.length_append, List.length_singleton] at hih
      simp only [hx, if_true]
      rw [List.takeWhile_cons_of_pos hx, List.length_cons, Nat.add_comm b.length,
        Nat.add_comm (b.takeWhile p).length, ← Nat.add_assoc, ← Nat.add_assoc]
      exact hih
    · simp [hx]

/-- From behind, the bytes that are skipped are the last ones. -/
theorem findIfNotReverse_eq (p : UInt8 → Bool) (a b c : Bytes) {fuel : Nat} (h : b.length < fuel) :
    findIfNotReverse p (a ++ b ++ c) fuel (a.length + b.length) a.length
      = some (a.length + (b.rdropWhile p).length) := by
  induction b using List.reverseRecOn generalizing c fuel with
  | nil =>
    obtain ⟨fuel, rfl⟩ : ∃ f, fuel = f + 1 := ⟨fuel - 1, by omega⟩
    rw [findIfNotReverse, if_pos (show a.length + ([] : Bytes).length = a.length from rfl)]
    rfl
  | append_singleton b x ih =>
    rw [List.length_append, List.length_singleton] at h ⊢
    obtain ⟨fuel, rfl⟩ : ∃ f, fuel = f + 1 := ⟨fuel - 1, by omega⟩
    have hget : (a ++ (b ++ [x]) ++ c)[a.length + (b.length + 1) - 1]? = some x := by simp
    have hne : a.length + (b.length + 1) ≠ a.length := by omega
    have hpos : a.length + (b.length + 1) ≠ 0 := by omega
    rw [findIfNotReverse, if_neg hne, if_neg hpos, hget]
    by_cases hx : p x = true
    · have hih := ih ([x] ++ c) (show b.length < fuel by omega)
      simp only [hx, if_true]
      rw [List.rdropWhile_concat_pos _ _ _ hx, ← hih]
      simp
    · simp [hx, List.rdropWhile_concat_neg _ _ _ hx]

/-- The iterators stay between the commas, and find the value there. -/
theorem headerValueElement_eq (p : τ → Bytes → Bool × τ) (a segment c : Bytes) {fuel : Nat} (t : τ)
    (h : segment.length < fuel) :
    headerValueElement p (a ++ segment ++ c) fuel t a.length (a.length + segment.length)
      = some (Detail.headerValueElement p t segment) := by
  have hsplit : segment.takeWhile isspace ++ segment.dropWhile isspace = segment :=
    List.takeWhile_append_dropWhile
  have hlen : (segment.takeWhile isspace).length + (segment.dropWhile isspace).length
      = segment.length := by
    rw [← List.length_append, hsplit]
  unfold headerValueElement Detail.headerValueElement
  rw [findIfNot_eq isspace a segment c h, Option.bind_some]
  simp only
  by_cases hnil : segment.dropWhile isspace = []
  · have hend : ¬ a.length + (segment.takeWhile isspace).length ≠ a.length + segment.length := by
      rw [hnil, List.length_nil] at hlen
      omega
    rw [if_neg hend, if_pos hnil]
  · have hpos : 0 < (segment.dropWhile isspace).length := List.length_pos_of_ne_nil hnil
    have hbegin : a.length + (segment.takeWhile isspace).length ≠ a.length + segment.length := by
      omega
    -- from behind, the search starts at the comma and ends where the value begins
    have hreverse := findIfNotReverse_eq isspace (a ++ segment.takeWhile isspace)
      (segment.dropWhile isspace) c (show _ < fuel by omega)
    rw [List.append_assoc a, hsplit, List.length_append, Nat.add_assoc, hlen] at hreverse
    rw [if_pos hbegin, hreverse, Option.bind_some, if_neg hnil]
    by_cases hvalue : (segment.dropWhile isspace).rdropWhile isspace = []
    · rw [if_pos hvalue, if_neg]
      rw [hvalue, List.length_nil]
      omega
    · have hne := List.length_pos_of_ne_nil hvalue
      have hsubstr : ((a ++ segment ++ c).drop (a.length + (segment.takeWhile isspace).length)).take
          (((segment.dropWhile isspace).rdropWhile isspace).length)
          = (segment.dropWhile isspace).rdropWhile isspace := by
        have hview : a ++ segment ++ c = (a ++ segment.takeWhile isspace)
            ++ ((segment.dropWhile isspace).rdropWhile isspace
              ++ ((segment.dropWhile isspace).rtakeWhile isspace ++ c)) := by
          rw [← List.append_assoc (List.rdropWhile _ _), List.rdropWhile_append_rtakeWhile,
            List.append_assoc a (List.takeWhile _ _), ← List.append_assoc (List.takeWhile _ _), hsplit,
            List.append_assoc]
        rw [hview, ← List.length_append, List.drop_left, List.take_left]
      rw [if_neg hvalue, if_pos (by omega), Nat.add_sub_cancel_left, hsubstr]

/-- The next comma, or the end of the list. -/
theorem find_eq (a rest : Bytes) {fuel : Nat} (h : rest.length < fuel) :
    find (a ++ rest) fuel a.length (a ++ rest).length 0x2C
      = some (a.length + (rest.takeWhile (· != 0x2C)).length) := by
  have heq := findIfNot_eq (· != 0x2C) a rest [] h
  rw [List.append_nil] at heq
  rw [find, List.length_append, heq]

/-- The loop on the iterators is the loop on the text they still have in front of them. -/
theorem headerValueLoop_eq (p : τ → Bytes → Bool × τ) (a rest : Bytes) {fuel : Nat} (t : τ)
    (h : rest.length < fuel) :
    headerValueLoop p (a ++ rest) fuel t a.length = some (Detail.headerValueLoop p fuel t rest) := by
  induction fuel generalizing a rest t with
  | zero => exact absurd h (Nat.not_lt_zero _)
  | succ fuel ih =>
    have hsplit : rest.takeWhile (· != 0x2C) ++ rest.dropWhile (· != 0x2C) = rest :=
      List.takeWhile_append_dropWhile
    have hlen : (rest.takeWhile (· != 0x2C)).length + (rest.dropWhile (· != 0x2C)).length
        = rest.length := by
      rw [← List.length_append, hsplit]
    have helement := headerValueElement_eq p a (rest.takeWhile (· != 0x2C))
      (rest.dropWhile (· != 0x2C)) t (show _ < fuel + 1 by omega)
    rw [List.append_assoc, hsplit] at helement
    rw [headerValueLoop, Detail.headerValueLoop, find_eq a rest h, Option.bind_some, helement,
      Option.bind_some]
    obtain ⟨stop, t'⟩ := Detail.headerValueElement p t (rest.takeWhile (· != 0x2C))
    cases stop with
    | true => rfl
    | false =>
      simp only [Bool.false_eq_true, if_false]
      cases hdrop : rest.dropWhile (· != 0x2C) with
      | nil =>
        rw [hdrop, List.length_nil, Nat.add_zero] at hlen
        rw [hlen, List.length_append]
        simp
      | cons x w =>
        -- the comma is passed, and the rest is shorter by one at least
        have hrest : a ++ rest = (a ++ rest.takeWhile (· != 0x2C) ++ [x]) ++ w := by
          rw [List.append_assoc, List.append_assoc, List.singleton_append, ← hdrop, hsplit]
        rw [hdrop, List.length_cons] at hlen
        have hend : a.length + (rest.takeWhile (· != 0x2C)).length ≠ (a ++ rest).length := by
          rw [List.length_append]
          omega
        have hcomma : a.length + (rest.takeWhile (· != 0x2C)).length + 1
            = (a ++ rest.takeWhile (· != 0x2C) ++ [x]).length := by
          simp only [List.length_append, List.length_singleton]
        rw [if_pos hend, List.drop_one, List.tail_cons, hcomma]
        by_cases hw : w = []
        · have hlast : ¬ (a ++ rest.takeWhile (· != 0x2C) ++ [x]).length ≠ (a ++ rest).length := by
            rw [hrest, hw, List.append_nil]
            exact fun hne => hne rfl
          rw [if_neg hlast, if_pos hw]
        · have hmore : (a ++ rest.takeWhile (· != 0x2C) ++ [x]).length ≠ (a ++ rest).length := by
            have hpos := List.length_pos_of_ne_nil hw
            have hsum : (a ++ rest).length
                = (a ++ rest.takeWhile (· != 0x2C) ++ [x]).length + w.length := by
              rw [hrest, List.length_append]
            omega
          rw [if_pos hmore, if_neg hw, hrest]
          exact ih _ w t' (by omega)

theorem headerValueAnyOf_eq (p : τ → Bytes → Bool × τ) {fuel : Nat} (t : τ) {v : Bytes}
    (h : v.length < fuel) : headerValueAnyOf p fuel t v = some (walk p t (elements v)) := by
  rw [headerValueAnyOf, ← Detail.headerValueLoop_eq p fuel t v h]
  exact headerValueLoop_eq p [] v t h

theorem decodeTransferEncoding_eq {fuel : Nat} {v : Bytes} (h : v.length < fuel) :
    decodeTransferEncoding fuel v = some (Detail.decodeTransferEncoding v) := by
  rw [decodeTransferEncoding, headerValueAnyOf_eq _ _ h, Detail.decodeTransferEncoding,
    Detail.headerValueAnyOf_eq]
  rfl

end Iterator

/-! ## The calls of the predicate -/

def recorded (p : τ → Bytes → Bool × τ) (s : τ × List (Bytes × Bool)) (e : Bytes) :
    Bool × (τ × List (Bytes × Bool)) :=
  ((p s.1 e).1, (p s.1 e).2, s.2 ++ [(e, (p s.1 e).1)])

def calls (p : τ → Bytes → Bool × τ) : τ → List Bytes → List (Bytes × Bool)
  | _, [] => []
  | t, e :: es => (e, (p t e).1) :: if (p t e).1 then [] else calls p (p t e).2 es

theorem walk_recorded (p : τ → Bytes → Bool × τ) (t : τ) (log : List (Bytes × Bool))
    (es : List Bytes) :
    walk (recorded p) (t, log) es
      = ((walk p t es).1, (walk p t es).2, log ++ calls p t es) := by
  induction es generalizing t log with
  | nil => rw [walk, walk, calls, List.append_nil]
  | cons e es ih =>
    rw [walk, walk, calls]
    cases he : (p t e).1 with
    | true => simp [recorded, he]
    | false => simp [recorded, he, ih]

/-- No element is left out, passed over or called twice. -/
theorem calls_prefix (p : τ → Bytes → Bool × τ) (t : τ) (es : List Bytes) :
    (calls p t es).map Prod.fst <+: es := by
  induction es generalizing t with
  | nil => exact List.prefix_rfl
  | cons e es ih =>
    rw [calls, List.map_cons, List.cons_prefix_cons]
    refine ⟨rfl, ?_⟩
    split
    · exact List.nil_prefix
    · exact ih _

theorem calls_dropLast (p : τ → Bytes → Bool × τ) (t : τ) (es : List Bytes) :
    ∀ call ∈ (calls p t es).dropLast, call.2 = false := by
  induction es generalizing t with
  | nil => exact nofun
  | cons e es ih =>
    rw [calls]
    cases he : (p t e).1 with
    | true => exact nofun
    | false =>
      simp only [Bool.false_eq_true, if_false]
      intro call hcall
      cases hcalls : calls p (p t e).2 es with
      | nil =>
        rw [hcalls] at hcall
        cases hcall
      | cons call' rest =>
        rw [hcalls, List.dropLast_cons_cons, ← hcalls] at hcall
        rcases List.mem_cons.mp hcall with rfl | hcall
        · rfl
        · exact ih _ call hcall

/-- The walk ends with the answer of its last call. -/
theorem walk_fst_iff (p : τ → Bytes → Bool × τ) (t : τ) (es : List Bytes) :
    (walk p t es).1 = true ↔ ∃ call ∈ calls p t es, call.2 = true := by
  induction es generalizing t with
  | nil => simp [walk, calls]
  | cons e es ih =>
    rw [walk, calls]
    cases he : (p t e).1 with
    | true => simp
    | false => simp [ih]

theorem calls_of_walk_false (p : τ → Bytes → Bool × τ) {t : τ} {es : List Bytes}
    (h : (walk p t es).1 = false) : (calls p t es).map Prod.fst = es := by
  induction es generalizing t with
  | nil => rfl
  | cons e es ih =>
    rw [walk] at h
    rw [calls]
    cases he : (p t e).1 with
    | true => simp [he] at h
    | false =>
      simp only [he, Bool.false_eq_true, if_false] at h ⊢
      rw [List.map_cons, ih h]

/-- A list of commas and whitespace has no elements. -/
theorem elements_blank {v : Bytes} (h : ∀ c ∈ v, c = 0x2C ∨ isspace c = true) : elements v = [] := by
  induction v with
  | nil => rfl
  | cons c v ih =>
    have hrest := ih fun a ha => h a (List.mem_cons_of_mem _ ha)
    rcases h c List.mem_cons_self with rfl | hc
    · rw [← List.nil_append (0x2C :: v), elements_append, hrest, elements_nil, List.append_nil]
    · rw [elements_cons hc, hrest]

/-- `header_value_any_of` returns for every list, and calls its predicate on the elements between the
commas that are not blank, in their order and each once, up to the first call that returns true; it
returns true if and only if there is one. -/
theorem header_value_any_of_walks (p : τ → Bytes → Bool × τ) (t : τ) (v : Bytes) :
    ∃ stop t' log, (∀ fuel, v.length < fuel →
        Iterator.headerValueAnyOf p fuel t v = some (stop, t') ∧
        Iterator.headerValueAnyOf (recorded p) fuel (t, []) v = some (stop, t', log)) ∧
      log.map Prod.fst <+: elements v ∧ (∀ call ∈ log.dropLast, call.2 = false) ∧
      (stop = false → log.map Prod.fst = elements v) ∧
      (stop = true ↔ ∃ call ∈ log, call.2 = true) ∧
      ((∀ c ∈ v, c = 0x2C ∨ isspace c = true) → stop = false ∧ log = []) := by
  refine ⟨(walk p t (elements v)).1, (walk p t (elements v)).2, calls p t (elements v),
    fun fuel hfuel => ⟨Iterator.headerValueAnyOf_eq p t hfuel, ?_⟩, calls_prefix p t _,
    calls_dropLast p t _, calls_of_walk_false p, walk_fst_iff p t _, fun hblank => ?_⟩
  · rw [Iterator.headerValueAnyOf_eq _ _ hfuel, walk_recorded, List.nil_append]
  · rw [elements_blank hblank]
    exact ⟨rfl, rfl⟩

/-! ## What the calls amount to -/

theorem codingOf_notFound_iff (es : List Bytes) :
    codingOf es = .chunkedNotFound ↔ ∀ e ∈ es, isChunked e = false := by
  induction es with
  | nil => exact iff_of_true rfl nofun
  | cons e es ih =>
    rw [codingOf, List.forall_mem_cons]
    cases he : isChunked e with
    | true => by_cases hes : es = [] <;> simp [hes]
    | false => simp [ih]

theorem codingOf_atEnd_iff (es : List Bytes) :
    codingOf es = .chunkedAtEnd ↔
      es.countP isChunked = 1 ∧ ∃ e, es.getLast? = some e ∧ isChunked e = true := by
  induction es with
  | nil => exact iff_of_false (by rintro ⟨⟩) (by simp)
  | cons e es ih =>
    rw [codingOf]
    cases he : isChunked e with
    | true =>
      rw [if_pos rfl, List.countP_cons_of_pos he]
      by_cases hes : es = []
      · subst hes
        simp [he]
      · -- the last element would be a second one
        rw [if_neg hes]
        refine iff_of_false (by simp) ?_
        rintro ⟨hcount, last, hlast, hchunked⟩
        rw [List.getLast?_cons_of_ne_nil hes] at hlast
        have hpos : 0 < es.countP isChunked :=
          List.countP_pos_iff.mpr ⟨last, List.mem_of_getLast? hlast, hchunked⟩
        omega
    | false =>
      have hneg : ¬ isChunked e = true := by rw [he]; simp
      rw [if_neg (by simp), ih, List.countP_cons_of_neg hneg]
      cases es with
      | nil => simp
      | cons f es => rw [List.getLast?_cons_of_ne_nil (List.cons_ne_nil _ _)]

/-- `decode_transfer_encoding` finds out whether chunked is among the codings, and whether it is the
last one and stands there only. -/
theorem decode_transfer_encoding_classifies (v : Bytes) :
    (∀ fuel, v.length < fuel →
      Iterator.decodeTransferEncoding fuel v = some (decodeTransferEncoding v)) ∧
    (decodeTransferEncoding v = .chunkedNotFound ↔ ∀ e ∈ elements v, isChunked e = false) ∧
    (decodeTransferEncoding v = .chunkedAtEnd ↔ (elements v).countP isChunked = 1 ∧
      ∃ e, (elements v).getLast? = some e ∧ isChunked e = true) ∧
    (decodeTransferEncoding v = .chunkedInvalid ↔
      ¬ (∀ e ∈ elements v, isChunked e = false) ∧
      ¬ ((elements v).countP isChunked = 1 ∧
        ∃ e, (elements v).getLast? = some e ∧ isChunked e = true)) := by
  have hnotFound := codingOf_notFound_iff (elements v)
  have hatEnd := codingOf_atEnd_iff (elements v)
  rw [← decodeTransferEncoding_eq] at hnotFound hatEnd
  refine ⟨fun fuel => Iterator.decodeTransferEncoding_eq, hnotFound, hatEnd, ?_⟩
  rw [← hnotFound, ← hatEnd]
  cases decodeTransferEncoding v <;> decide

end Detail

end BoostHttp
