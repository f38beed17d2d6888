import BoostHttp.Fragmentation
import BoostHttp.Grammar

/-!
# Request.Head — the grammar of request heads

A head is given by its parts.  The lexer finds exactly these parts in it, and it ends a head only
where one of this form has been read whose fields the framing policy accepts.
-/

open Incremental

namespace BoostHttp

namespace Request

structure Head where
  method : Bytes
  target : Bytes
  digit : UInt8
  eol : Eol
  fields : List (Field × Eol)
  lastEol : Eol
  method_ne : method ≠ []
  method_chars : ∀ c ∈ method, c ∈ Alphabet.token
  target_ne : target ≠ []
  target_chars : ∀ c ∈ target, c ∈ Alphabet.target
  digit_isDigit : digit ∈ Alphabet.digits

/-- The method and the target of a request that is well. -/
theorem slash_ne : ascii "/" ≠ [] := by decide

theorem slash_chars : ∀ c ∈ ascii "/", c ∈ Alphabet.target := by decide +kernel

theorem put_ne : ascii "PUT" ≠ [] := by decide

theorem put_chars : ∀ c ∈ ascii "PUT", c ∈ Alphabet.token := by decide +kernel

namespace Head

def line (g : Head) : Bytes :=
  g.method ++ 0x20 :: (g.target ++ (ascii " HTTP/1." ++ g.digit :: g.eol.bytes))

def bytes (g : Head) : Bytes := g.line ++ (blockBytes g.fields ++ g.lastEol.bytes)

def version (g : Head) : Int := (g.digit.toNat : Int) - 0x30

def lineEvents (g : Head) (p : Nat) : List Event :=
  [.token p ⟨.method, g.method.length, .view g.method⟩,
    .token (p + g.method.length + 1) ⟨.requestTarget, g.target.length, .view g.target⟩,
    .token (p + g.method.length + 1 + g.target.length + 8) ⟨.version, 1, .version g.version⟩]

def events (g : Head) (p : Nat) : List Event :=
  g.lineEvents p ++ (blockEvents .fieldName .fieldValue (p + g.line.length) g.fields ++
    [endOfHeaders (p + g.line.length + (blockBytes g.fields).length) g.lastEol])

def headers (g : Head) : List Field := g.fields.map Prod.fst

end Head

section Line

variable {φ : Type} {P : Policy φ} {client : Client φ} {b : Bool} {j p n : Nat} {f : φ}
  {rest w : Bytes} {v : List Event}

theorem leads_requestLine (g : Head) :
    (machine P client).Leads b p (⟨.method, f, n⟩, j) (g.line ++ rest) (g.lineEvents p)
      (p + g.line.length) (⟨.fieldName, P.onVersion f g.digit, n⟩, j) rest := by
  let afterTarget := ascii " HTTP/1." ++ g.digit :: (g.eol.bytes ++ rest)
  have hmethod : (machine P client).Leads b p (⟨.method, f, n⟩, j)
      (g.method ++ 0x20 :: (g.target ++ afterTarget)) _ _ (⟨.spAfterMethod, f, n⟩, j) _ :=
    leads_follows rfl (fun _ => rfl) rfl rfl nofun (by simp)
      (scan_nonempty rfl g.method_ne (fun c hc => (isTchar_iff c).mpr (g.method_chars c hc))
        (by decide)) nofun
  have hsp : (machine P client).Leads b (p + g.method.length) (⟨.spAfterMethod, f, n⟩, j)
      (0x20 :: (g.target ++ afterTarget)) _ _ (⟨.requestTarget, f, n⟩, j) _ :=
    leads_sp rfl rfl (fun _ => rfl) rfl rfl nofun
  have htarget : (machine P client).Leads b (p + g.method.length + 1) (⟨.requestTarget, f, n⟩, j)
      (g.target ++ afterTarget) _ _ (⟨.staticStrAfterTarget, f, n⟩, j) _ :=
    leads_follows rfl (fun _ => rfl) rfl rfl nofun (by simp [g.target_ne])
      (scan_nonempty rfl g.target_ne
        (fun c hc => (isRequestTargetChar_iff c).mpr (g.target_chars c hc)) (by decide)) nofun
  have hstatic : (machine P client).Leads b (p + g.method.length + 1 + g.target.length)
      (⟨.staticStrAfterTarget, f, n⟩, j) afterTarget _ _ (⟨.requestVersion, f, n⟩, j) _ :=
    leads_follows rfl (fun _ => rfl) rfl rfl nofun nofun (literal_append _ _) nofun
  have hversion : (machine P client).Leads b
      (p + g.method.length + 1 + g.target.length + 8) (⟨.requestVersion, f, n⟩, j)
      (g.digit :: (g.eol.bytes ++ rest)) _ _ _ _ := leads_version (.inl ⟨rfl, rfl⟩) g.digit_isDigit
  have heol : (machine P client).Leads b
      (p + g.method.length + 1 + g.target.length + 8 + 1)
      (⟨.crlfAfterVersion, P.onVersion f g.digit, n⟩, j) (g.eol.bytes ++ rest) _ _
      (⟨.fieldName, P.onVersion f g.digit, n⟩, j) _ :=
    leads_eol g.eol rfl rfl (fun _ => rfl) rfl rfl nofun
  have hbytes : g.line ++ rest = g.method ++ 0x20 :: (g.target ++ afterTarget) := by
    simp [Head.line, afterTarget]
  have hlen : p + g.line.length
      = p + g.method.length + 1 + g.target.length + 8 + 1 + g.eol.bytes.length := by
    have hlit : (ascii " HTTP/1.").length = 8 := rfl
    simp only [Head.line, List.length_append, List.length_cons, hlit]
    omega
  have hmv : tokenValue .method n (g.method ++ 0x20 :: (g.target ++ afterTarget)) g.method.length
      = .view g.method := by rw [tokenValue, List.take_left]
  have htv : tokenValue .requestTarget n (g.target ++ afterTarget) g.target.length
      = .view g.target := by rw [tokenValue, List.take_left]
  rw [hmv] at hmethod
  rw [htv] at htarget
  rw [hbytes, hlen]
  exact hmethod.trans (hsp.trans (htarget.trans (hstatic.trans (hversion.trans heol))))

/-- A run in which a head ends has passed a request line. -/
theorem of_runs_requestLine (hP : P.FailsWith fun c => c.isFatal = true)
    (hr : (machine P client).Runs b p (⟨.method, f, n⟩, j) w v)
    (hv : v.any Event.isHeadEnd = true) :
    ∃ method target digit eol rest o v', method ≠ [] ∧ (∀ c ∈ method, c ∈ Alphabet.token) ∧
      target ≠ [] ∧ (∀ c ∈ target, c ∈ Alphabet.target) ∧ digit ∈ Alphabet.digits ∧
      w = method ++ 0x20 :: (target ++ (ascii " HTTP/1." ++ digit :: (Eol.bytes eol ++ rest))) ∧
      (machine P client).Runs b o (⟨.fieldName, P.onVersion f digit, n⟩, j) rest v' ∧
      v'.any Event.isHeadEnd = true := by
  obtain ⟨method, w₁, v₁, rfl, hscan₁, hrun₁, hany₁⟩ := of_runs_follows (q := .method) rfl hP rfl
    (fun _ => rfl) (by simp) (by simp) hr hv
  obtain ⟨hmethod, hmethod'⟩ := of_scan_nonempty hscan₁
  obtain ⟨sp, w₂, v₂, rfl, hscan₂, hrun₂, hany₂⟩ := of_runs_follows (q := .spAfterMethod) rfl hP rfl
    (fun _ => rfl) (by simp) (by simp) hrun₁ hany₁
  obtain ⟨target, w₃, v₃, rfl, hscan₃, hrun₃, hany₃⟩ := of_runs_follows (q := .requestTarget) rfl hP rfl
    (fun _ => rfl) (by simp) (by simp) hrun₂ hany₂
  obtain ⟨htarget, htarget'⟩ := of_scan_nonempty hscan₃
  obtain ⟨lit, w₄, v₄, rfl, hscan₄, hrun₄, hany₄⟩ := of_runs_follows (q := .staticStrAfterTarget) rfl hP
    rfl (fun _ => rfl) (by simp) (by simp) hrun₃ hany₃
  obtain ⟨-, hlit⟩ := literal_ok hscan₄
  rw [List.take_left] at hlit
  obtain ⟨_, _, version, w₅, s₅, code₅, v₅, -, rfl, hscan₅, hacc₅, hany₅, hrun₅⟩ :=
    of_runs_lexeme (s := ⟨.requestVersion, f, n⟩) rfl hP rfl nofun (fun _ => rfl) hrun₄ hany₄
  obtain ⟨digit, rfl, hdigit⟩ := of_scan_one hscan₅
  cases hacc₅
  obtain ⟨eol, rest, v₆, rfl, hscan₆, hrun₆, hany₆⟩ := of_runs_follows (q := .crlfAfterVersion) rfl hP
    rfl (fun _ => rfl) (by simp) (by simp) (hrun₅ nofun) (hany₅ nofun)
  obtain ⟨eol, rfl⟩ := of_lineEnd hscan₆
  obtain ⟨c, rfl, hc⟩ := of_scan_one hscan₂
  have hc : c = 0x20 := by simpa [Detail.isSp] using hc
  refine ⟨method, target, digit, eol, rest, _, v₆, hmethod,
    fun c hc => (isTchar_iff c).mp (hmethod' c hc), htarget,
    fun c hc => (isRequestTargetChar_iff c).mp (htarget' c hc), (isDigit_iff digit).mp hdigit, ?_,
    hrun₆, hany₆⟩
  rw [hlit, hc]
  rfl

theorem Head.bytes_append (g : Head) (rest : Bytes) :
    g.bytes ++ rest = g.line ++ (blockBytes g.fields ++ (g.lastEol.bytes ++ rest)) := by
  simp [Head.bytes]

/-- A head whose fields the policy accepts. -/
theorem leads_head (g : Head) {s' : Core φ}
    (h : P.headers (P.onVersion f g.digit) n g.headers = .ok s') :
    (machine P client).Leads b p (⟨.method, f, n⟩, j) (g.bytes ++ rest) (g.events p)
      (p + g.bytes.length) (s', j) rest := by
  have hlen : p + g.bytes.length
      = p + g.line.length + (blockBytes g.fields).length + g.lastEol.bytes.length := by
    simp only [Head.bytes, List.length_append]
    omega
  rw [g.bytes_append, hlen]
  exact (leads_requestLine g).trans (leads_headers g.lastEol h)

/-- A head whose fields the policy rejects. -/
theorem runs_head_rejected (g : Head) {code : Code}
    (h : P.headers (P.onVersion f g.digit) n g.headers = .error code) :
    ∃ es o, (machine P client).Runs b p (⟨.method, f, n⟩, j) (g.bytes ++ rest)
      (es ++ Token.events o ⟨code, 0, .none⟩) ∧ es.any Event.isHeadEnd = false := by
  obtain ⟨es, o, hr, hes⟩ := runs_headers_rejected g.lastEol h
  refine ⟨g.lineEvents p ++ es, o, ?_, ?_⟩
  · rw [g.bytes_append, List.append_assoc]
    exact leads_requestLine g _ hr
  · rw [List.any_append, hes]
    rfl

/-- A run in which a head ends has passed a head whose fields the policy accepts. -/
theorem of_runs_head (hP : P.FailsWith fun c => c.isFatal = true)
    (hr : (machine P client).Runs b p (⟨.method, f, n⟩, j) w v)
    (hv : v.any Event.isHeadEnd = true) :
    ∃ g rest s', w = Head.bytes g ++ rest ∧
      P.headers (P.onVersion f g.digit) n g.headers = .ok s' := by
  obtain ⟨method, target, digit, eol, w', o, v', hm, hm', ht, ht', hd, rfl, hr', hv'⟩ :=
    of_runs_requestLine hP hr hv
  obtain ⟨ls, e, rest, s', rfl, hs'⟩ := of_runs_headers hP hr' hv'
  refine ⟨⟨method, target, digit, eol, ls, e, hm, hm', ht, ht', hd⟩, rest, s', ?_, hs'⟩
  simp [Head.bytes, Head.line]

end Line

end Request

end BoostHttp
