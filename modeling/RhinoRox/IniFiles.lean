import RhinoRox.Sds
import Mathlib.Data.List.DropRight

/-!
# Configuration files, from `ini.c`

The parser reads the file with `fgets`, so a line longer than the buffer comes in pieces, and
calls a handler for each `name = value` pair. An indented line repeats the last name. Neither a
malformed line nor a handler that refuses stops it: it reports the first such line at the end.
What a file asks of the handler therefore depends on the file alone (`iniEvents`).
-/

namespace RhinoRox

def iniMaxLine : ℕ := 200

def maxSection : ℕ := 50

def maxName : ℕ := 50

/-- The strings that successive calls of `fgets` return: each ends after a newline, after
`size - 1` bytes or at the end of the file. `line` is what the current call has read. -/
def fgetsLines (size : ℕ) (line : Bytes) : Bytes → List Bytes
  | [] => if line = [] then [] else [line]
  | c :: s =>
    if c = 10 ∨ line.length + 2 = size then (line ++ [c]) :: fgetsLines size [] s
    else fgetsLines size (line ++ [c]) s

def rstrip (s : Bytes) : Bytes := s.rdropWhile isspace

def lskip (s : Bytes) : Bytes := s.dropWhile isspace

/-- `find_chars_or_comment`: the text before the place it returns, and the text from there on. -/
def findCharsOrComment (chars : Bytes) (wasSpace : Bool) : Bytes → Bytes × Bytes
  | [] => ([], [])
  | c :: s =>
    if c ∈ chars ∨ (wasSpace ∧ c = 59) then ([], c :: s)
    else
      let found := findCharsOrComment chars (isspace c) s
      (c :: found.1, found.2)

/-- `strncpy0` on a string: what fits in `size` bytes with the terminator. -/
def strncpy0 (s : Bytes) (size : ℕ) : Bytes := s.take (size - 1)

/-- What the loop of `ini_parse_stream` takes a line for. -/
inductive IniLine where
  | nothing
  | continuation (value : Bytes)
  | heading (text : Bytes)
  | pair (name value : Bytes)
  | malformed
  deriving DecidableEq

/-- The value of a pair, from the text behind the separator. -/
def iniValue (s : Bytes) : Bytes := rstrip (findCharsOrComment [] false (lskip s)).1

/-- The branches of the loop. `line` is the string in the buffer. -/
def iniLine (lineno : ℕ) (prevName line : Bytes) : IniLine :=
  let bom : Bool := lineno = 1 ∧ byteAt line 0 = 0xEF ∧ byteAt line 1 = 0xBB ∧ byteAt line 2 = 0xBF
  let text := rstrip (if bom then line.drop 3 else line)
  let start := lskip text
  if byteAt start 0 = 59 ∨ byteAt start 0 = 35 then .nothing
  -- `start > line`: something was skipped
  else if prevName ≠ [] ∧ start ≠ [] ∧ (bom ∨ start.length < text.length) then .continuation start
  else if byteAt start 0 = 91 then
    let found := findCharsOrComment [93] false (start.drop 1)
    if byteAt found.2 0 = 93 then .heading found.1 else .malformed
  else if start ≠ [] then
    let found := findCharsOrComment [61, 58] false start
    if byteAt found.2 0 = 61 ∨ byteAt found.2 0 = 58 then
      .pair (rstrip found.1) (iniValue (found.2.drop 1))
    else .malformed
  else .nothing

/-- The variables of `ini_parse_stream`; `lineno` is the number of lines read. -/
structure IniParse (σ : Type) where
  user : σ
  inSection : Bytes
  prevName : Bytes
  lineno : ℕ
  error : ℕ

section Parser

variable {σ : Type} (handler : σ → Bytes → Bytes → Bytes → Exec (σ × Bool))

/-- `if (!error) error = lineno`. -/
def IniParse.fail (p : IniParse σ) : IniParse σ :=
  { p with error := if p.error = 0 then p.lineno else p.error }

/-- A call of the handler. -/
def IniParse.call (p : IniParse σ) (name value : Bytes) : Exec (IniParse σ) := do
  let (user, accepted) ← handler p.user p.inSection name value
  let p := { p with user }
  pure (if accepted then p else p.fail)

/-- One turn of the loop. -/
def IniParse.turn (p : IniParse σ) (line : Bytes) : Exec (IniParse σ) :=
  let p := { p with lineno := p.lineno + 1 }
  match iniLine p.lineno p.prevName (cStr line) with
  | .nothing => pure p
  | .continuation value => p.call handler p.prevName value
  | .heading text => pure { p with inSection := strncpy0 text maxSection, prevName := [] }
  | .pair name value => { p with prevName := strncpy0 name maxName }.call handler name value
  | .malformed => pure p.fail

/-- The handler's data at the end, and the number of the first line with an error or 0. -/
def iniParseStream (user : σ) (file : Bytes) : Exec (σ × ℕ) := do
  let p ← (fgetsLines iniMaxLine [] file).foldlM (IniParse.turn handler) ⟨user, [], [], 0, 0⟩
  pure (p.user, p.error)

end Parser

/-! ## What a file asks for -/

/-- A call of the handler. -/
structure IniCall where
  inSection : Bytes
  name : Bytes
  value : Bytes
  deriving DecidableEq

/-- The calls that the lines ask for, `none` for a malformed line. -/
def lineEvents (inSection prevName : Bytes) (lineno : ℕ) : List Bytes → List (Option IniCall)
  | [] => []
  | line :: lines =>
    match iniLine (lineno + 1) prevName (cStr line) with
    | .nothing => lineEvents inSection prevName (lineno + 1) lines
    | .continuation value =>
      some ⟨inSection, prevName, value⟩ :: lineEvents inSection prevName (lineno + 1) lines
    | .heading text => lineEvents (strncpy0 text maxSection) [] (lineno + 1) lines
    | .pair name value =>
      some ⟨inSection, name, value⟩ :: lineEvents inSection (strncpy0 name maxName) (lineno + 1) lines
    | .malformed => none :: lineEvents inSection prevName (lineno + 1) lines

def iniEvents (file : Bytes) : List (Option IniCall) := lineEvents [] [] 0 (fgetsLines iniMaxLine [] file)

theorem findCharsOrComment_append (chars : Bytes) (wasSpace : Bool) (s : Bytes) :
    (findCharsOrComment chars wasSpace s).1 ++ (findCharsOrComment chars wasSpace s).2 = s := by
  induction s generalizing wasSpace with
  | nil => rfl
  | cons c s ih =>
    rw [findCharsOrComment]
    by_cases hc : c ∈ chars ∨ (wasSpace ∧ c = 59)
    · rw [if_pos hc, List.nil_append]
    · rw [if_neg hc]
      exact congrArg (List.cons c) (ih (isspace c))

theorem rstrip_subset (s : Bytes) : rstrip s ⊆ s := (List.rdropWhile_prefix isspace s).subset

theorem lskip_subset (s : Bytes) : lskip s ⊆ s := (List.dropWhile_suffix isspace).subset

theorem iniValue_subset (s : Bytes) : iniValue s ⊆ s := by
  have hbefore : (findCharsOrComment [] false (lskip s)).1 ⊆ lskip s := by
    conv_rhs => rw [← findCharsOrComment_append [] false (lskip s)]
    exact List.subset_append_left _ _
  exact List.Subset.trans (List.Subset.trans (rstrip_subset _) hbefore) (lskip_subset s)

/-- The text of a line that is passed on as a value. -/
def IniLine.value : IniLine → Bytes
  | .continuation value => value
  | .pair _ value => value
  | _ => []

theorem iniLine_value_subset (lineno : ℕ) (prevName line : Bytes) :
    (iniLine lineno prevName line).value ⊆ line := by
  have hstart : ∀ bom : Bool, lskip (rstrip (if bom then line.drop 3 else line)) ⊆ line := by
    intro bom
    apply List.Subset.trans (lskip_subset _)
    apply List.Subset.trans (rstrip_subset _)
    cases bom with
    | true => exact List.drop_subset 3 line
    | false => exact List.Subset.refl line
  have hfound : ∀ chars s, iniValue ((findCharsOrComment chars false s).2.drop 1) ⊆ s := by
    intro chars s
    apply List.Subset.trans (iniValue_subset _)
    apply List.Subset.trans (List.drop_subset 1 _)
    conv_rhs => rw [← findCharsOrComment_append chars false s]
    exact List.subset_append_right _ _
  unfold iniLine
  extract_lets bom text start
  have hline : start ⊆ line := hstart bom
  split_ifs
  · exact List.nil_subset _
  · exact hline
  · exact List.nil_subset _
  · exact List.nil_subset _
  · rw [IniLine.value]
    exact List.Subset.trans (hfound _ _) hline
  · exact List.nil_subset _
  · exact List.nil_subset _

/-- What a file gives as a value is a C string. -/
theorem zero_notMem_lineEvents {inSection prevName : Bytes} {lineno : ℕ} {lines : List Bytes} {c : IniCall}
    (h : some c ∈ lineEvents inSection prevName lineno lines) : 0 ∉ c.value := by
  induction lines generalizing inSection prevName lineno with
  | nil => cases h
  | cons line lines ih =>
    have hvalue := iniLine_value_subset (lineno + 1) prevName (cStr line)
    have hzero : 0 ∉ (iniLine (lineno + 1) prevName (cStr line)).value :=
      fun hmem => zero_notMem_cStr line (hvalue hmem)
    rw [lineEvents] at h
    cases hl : iniLine (lineno + 1) prevName (cStr line) with
    | nothing | heading text =>
      simp only [hl] at h
      exact ih h
    | malformed =>
      simp only [hl, List.mem_cons, reduceCtorEq, false_or] at h
      exact ih h
    | continuation value | pair name value =>
      rw [hl] at hzero
      simp only [hl, List.mem_cons, Option.some.injEq] at h
      cases h with
      | inl hc => exact hc ▸ hzero
      | inr hr => exact ih hr

/-! ## Files without an error -/

section Accepted

variable {σ : Type} (handler : σ → Bytes → Bytes → Bytes → Exec (σ × Bool))

/-- A run of the handler over the events of a file in which it accepts every call. -/
inductive IniAccepts : σ → List (Option IniCall) → σ → Prop
  | nil (u : σ) : IniAccepts u [] u
  | cons {u v w : σ} {c : IniCall} {events : List (Option IniCall)} :
      handler u c.inSection c.name c.value = .ok (v, true) → IniAccepts v events w →
      IniAccepts u (some c :: events) w

variable {handler}

theorem IniAccepts.cons_iff {u w : σ} {c : IniCall} {events : List (Option IniCall)} :
    IniAccepts handler u (some c :: events) w ↔
      ∃ v, handler u c.inSection c.name c.value = .ok (v, true) ∧ IniAccepts handler v events w := by
  constructor
  · intro h
    cases h with
    | cons hc hr => exact ⟨_, hc, hr⟩
  · intro h
    obtain ⟨v, hc, hr⟩ := h
    exact .cons hc hr

theorem IniAccepts.not_none {u w : σ} {events : List (Option IniCall)} :
    ¬ IniAccepts handler u (none :: events) w := by
  intro h
  cases h

theorem IniParse.fail_error_ne_zero {p : IniParse σ} (h : p.error ≠ 0 ∨ p.lineno ≠ 0) : p.fail.error ≠ 0 := by
  rw [IniParse.fail]
  by_cases he : p.error = 0
  · rw [if_pos he]
    exact h.resolve_left (not_not.mpr he)
  · rwa [if_neg he]

theorem IniParse.call_ok {p q : IniParse σ} {name value : Bytes} (h : p.call handler name value = .ok q) :
    ∃ user accepted, handler p.user p.inSection name value = .ok (user, accepted) ∧
      q = if accepted then { p with user } else { p with user }.fail := by
  obtain ⟨⟨user, accepted⟩, hcall, hq⟩ := Exec.bind_eq_ok.mp h
  exact ⟨user, accepted, hcall, (Except.ok.inj hq).symm⟩

theorem IniParse.call_error {p q : IniParse σ} {name value : Bytes} (hp : p.error ≠ 0)
    (h : p.call handler name value = .ok q) : q.error ≠ 0 := by
  obtain ⟨user, accepted, -, rfl⟩ := IniParse.call_ok h
  cases accepted with
  | true => exact hp
  | false => exact IniParse.fail_error_ne_zero (Or.inl hp)

/-- The first error is kept. -/
theorem IniParse.turn_error {p q : IniParse σ} {line : Bytes} (hp : p.error ≠ 0)
    (h : p.turn handler line = .ok q) : q.error ≠ 0 := by
  rw [IniParse.turn] at h
  cases hl : iniLine (p.lineno + 1) p.prevName (cStr line) with
  | nothing | heading text =>
    simp only [hl, Exec.pure_eq, Except.ok.injEq] at h
    exact h ▸ hp
  | continuation value =>
    simp only [hl] at h
    exact IniParse.call_error (p := { p with lineno := p.lineno + 1 }) hp h
  | pair name value =>
    simp only [hl] at h
    exact IniParse.call_error (p := { p with lineno := p.lineno + 1, prevName := strncpy0 name maxName }) hp h
  | malformed =>
    simp only [hl, Exec.pure_eq, Except.ok.injEq] at h
    exact h ▸ IniParse.fail_error_ne_zero (Or.inl hp)

theorem IniParse.turns_error {p q : IniParse σ} {lines : List Bytes} (hp : p.error ≠ 0)
    (h : lines.foldlM (IniParse.turn handler) p = .ok q) : q.error ≠ 0 := by
  induction lines generalizing p with
  | nil => exact Except.ok.inj h ▸ hp
  | cons line lines ih =>
    rw [List.foldlM_cons] at h
    obtain ⟨r, hr, hrest⟩ := Exec.bind_eq_ok.mp h
    exact ih (IniParse.turn_error hp hr) hrest

/-- The lines end without an error, and with this data of the handler. -/
def IniParse.EndsWith (handler : σ → Bytes → Bytes → Bytes → Exec (σ × Bool)) (p : IniParse σ)
    (lines : List Bytes) (user : σ) : Prop :=
  ∃ q, lines.foldlM (IniParse.turn handler) p = .ok q ∧ q.error = 0 ∧ q.user = user

theorem IniParse.endsWith_cons {p : IniParse σ} {line : Bytes} {lines : List Bytes} {user : σ} :
    p.EndsWith handler (line :: lines) user ↔
      ∃ r, p.turn handler line = .ok r ∧ r.error = 0 ∧ r.EndsWith handler lines user := by
  constructor
  · intro h
    obtain ⟨q, hq, he, hu⟩ := h
    rw [List.foldlM_cons] at hq
    obtain ⟨r, hr, hrest⟩ := Exec.bind_eq_ok.mp hq
    have hzero : r.error = 0 := by
      by_contra hne
      exact IniParse.turns_error hne hrest he
    exact ⟨r, hr, hzero, q, hrest, he, hu⟩
  · intro h
    obtain ⟨r, hr, -, q, hrest, he, hu⟩ := h
    refine ⟨q, ?_, he, hu⟩
    rw [List.foldlM_cons]
    exact Exec.bind_eq_ok.mpr ⟨r, hr, hrest⟩

/-- A call ends without an error when the handler accepts it. -/
theorem IniParse.call_accepted {p r : IniParse σ} {name value : Bytes} (hp : p.error = 0)
    (hline : p.lineno ≠ 0) :
    p.call handler name value = .ok r ∧ r.error = 0 ↔
      ∃ user, handler p.user p.inSection name value = .ok (user, true) ∧ r = { p with user } := by
  constructor
  · intro h
    obtain ⟨user, accepted, hcall, rfl⟩ := IniParse.call_ok h.1
    cases accepted with
    | true => exact ⟨user, hcall, rfl⟩
    | false => exact absurd h.2 (IniParse.fail_error_ne_zero (Or.inr hline))
  · intro h
    obtain ⟨user, hcall, rfl⟩ := h
    exact ⟨by simp [IniParse.call, hcall], hp⟩

theorem IniParse.endsWith_iff {p : IniParse σ} {lines : List Bytes} {user : σ} (hp : p.error = 0) :
    p.EndsWith handler lines user ↔
      IniAccepts handler p.user (lineEvents p.inSection p.prevName p.lineno lines) user := by
  induction lines generalizing p with
  | nil =>
    constructor
    · intro h
      obtain ⟨q, hq, -, hu⟩ := h
      obtain rfl := Except.ok.inj hq
      exact hu ▸ .nil _
    · intro h
      cases h with
      | nil => exact ⟨p, rfl, hp, rfl⟩
  | cons line lines ih =>
    -- a pair and a continuation line differ in the name of the call and in the name that is kept
    have hcalled : ∀ {t : IniParse σ} {name value : Bytes}, t.error = 0 → t.lineno ≠ 0 →
        ((∃ r, t.call handler name value = .ok r ∧ r.error = 0 ∧ r.EndsWith handler lines user) ↔
          IniAccepts handler t.user (some ⟨t.inSection, name, value⟩ ::
            lineEvents t.inSection t.prevName t.lineno lines) user) := by
      intro t name value hzero hline
      rw [IniAccepts.cons_iff]
      constructor
      · intro h
        obtain ⟨r, hr, he, hrest⟩ := h
        obtain ⟨v, hcall, rfl⟩ := (IniParse.call_accepted hzero hline).mp ⟨hr, he⟩
        exact ⟨v, hcall, (ih (p := { t with user := v }) hzero).mp hrest⟩
      · intro h
        obtain ⟨v, hcall, hrest⟩ := h
        obtain ⟨hr, he⟩ := (IniParse.call_accepted (r := { t with user := v }) hzero hline).mpr ⟨v, hcall, rfl⟩
        exact ⟨_, hr, he, (ih he).mpr hrest⟩
    rw [IniParse.endsWith_cons, IniParse.turn, lineEvents]
    cases hl : iniLine (p.lineno + 1) p.prevName (cStr line) with
    | nothing =>
      have hrest := ih (p := { p with lineno := p.lineno + 1 }) hp
      simpa [hp] using hrest
    | continuation value =>
      simp only
      exact hcalled (t := { p with lineno := p.lineno + 1 }) hp (Nat.succ_ne_zero _)
    | heading text =>
      have hrest := ih (p := ⟨p.user, strncpy0 text maxSection, [], p.lineno + 1, p.error⟩) hp
      simpa [hp] using hrest
    | pair name value =>
      simp only
      exact hcalled (t := ⟨p.user, p.inSection, strncpy0 name maxName, p.lineno + 1, p.error⟩) hp
        (Nat.succ_ne_zero _)
    | malformed =>
      simp only
      constructor
      · intro h
        obtain ⟨r, hr, he, -⟩ := h
        obtain rfl := Except.ok.inj hr
        exact absurd he (IniParse.fail_error_ne_zero (Or.inr (Nat.succ_ne_zero _)))
      · intro h
        exact absurd h IniAccepts.not_none

/-- A file is read without an error exactly when no line of it is malformed and the handler
accepts every call. -/
theorem iniParseStream_eq_zero {u w : σ} {file : Bytes} :
    iniParseStream handler u file = .ok (w, 0) ↔ IniAccepts handler u (iniEvents file) w := by
  rw [iniEvents, ← IniParse.endsWith_iff (p := ⟨u, [], [], 0, 0⟩) rfl, iniParseStream, Exec.bind_eq_ok]
  constructor
  · intro h
    obtain ⟨q, hq, hres⟩ := h
    obtain ⟨hu, he⟩ := Prod.mk.inj (Except.ok.inj hres)
    exact ⟨q, hq, he, hu⟩
  · intro h
    obtain ⟨q, hq, he, hu⟩ := h
    exact ⟨q, hq, congrArg Except.ok (Prod.ext hu he)⟩

end Accepted

end RhinoRox
