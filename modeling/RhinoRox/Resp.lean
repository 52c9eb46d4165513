import RhinoRox.DecimalText

/-!
# The protocol on the wire

The text that a client sends for a list of arguments, and the values that a server may
answer with. No value is the beginning of another one, so a stream of values can be cut
in only one way.
-/

namespace RhinoRox

/-- A header line. -/
def headerLine (b : UInt8) (n : ℕ) : Bytes := b :: (decimalText n ++ [13, 10])

def encodeArg (a : Bytes) : Bytes := headerLine 36 a.length ++ (a ++ [13, 10])

def encodeArgs (args : List Bytes) : Bytes := (args.map encodeArg).flatten

def encodeRequest (args : List Bytes) : Bytes := headerLine 42 args.length ++ encodeArgs args

def encodeRequests (reqs : List (List Bytes)) : Bytes := (reqs.map encodeRequest).flatten

@[simp] theorem encodeArgs_cons (a : Bytes) (args : List Bytes) :
    encodeArgs (a :: args) = encodeArg a ++ encodeArgs args := rfl

@[simp] theorem encodeRequests_cons (r : List Bytes) (reqs : List (List Bytes)) :
    encodeRequests (r :: reqs) = encodeRequest r ++ encodeRequests reqs := rfl

/-- Text without a line end. -/
def OneLine (s : Bytes) : Prop := 13 ∉ s ∧ 10 ∉ s

instance (s : Bytes) : Decidable (OneLine s) := inferInstanceAs (Decidable (_ ∧ _))

/-- A complete value: a status or error line, an integer, a bulk string with its length,
the null bulk, or an array with the number of its elements. -/
inductive RespValue : Bytes → Prop
  | status {s : Bytes} (h : OneLine s) : RespValue (43 :: (s ++ [13, 10]))
  | error {s : Bytes} (h : OneLine s) : RespValue (45 :: (s ++ [13, 10]))
  | integer (n : ℤ) : RespValue (58 :: (integerText n ++ [13, 10]))
  | bulk (s : Bytes) : RespValue (encodeArg s)
  | null : RespValue [36, 45, 49, 13, 10]
  | array {vs : List Bytes} (h : ∀ v ∈ vs, RespValue v) : RespValue (headerLine 42 vs.length ++ vs.flatten)

theorem oneLine_decimalText (n : ℕ) : OneLine (decimalText n) := by
  constructor
  · intro h
    exact absurd (mem_decimalText h).1 (by decide)
  · intro h
    exact absurd (mem_decimalText h).1 (by decide)

theorem oneLine_integerText (n : ℤ) : OneLine (integerText n) := by
  obtain ⟨h₁, h₂⟩ := oneLine_decimalText n.natAbs
  rw [integerText, ll2stringDigits_eq]
  split
  · exact ⟨by simpa using h₁, by simpa using h₂⟩
  · exact ⟨h₁, h₂⟩

/-- A line ends at its first CR. -/
theorem line_split {s t x y : Bytes} (hs : OneLine s) (ht : OneLine t)
    (h : s ++ [13, 10] ++ x = t ++ [13, 10] ++ y) : s = t ∧ x = y := by
  induction s generalizing t with
  | nil =>
    cases t with
    | nil => exact ⟨rfl, by simpa using h⟩
    | cons b t => exact absurd (by simp_all) (show 13 ∉ b :: t from ht.1)
  | cons a s ih =>
    cases t with
    | nil => exact absurd (by simp_all) (show 13 ∉ a :: s from hs.1)
    | cons b t =>
      have hs' : OneLine s := ⟨fun hm => hs.1 (List.mem_cons_of_mem _ hm), fun hm => hs.2 (List.mem_cons_of_mem _ hm)⟩
      have ht' : OneLine t := ⟨fun hm => ht.1 (List.mem_cons_of_mem _ hm), fun hm => ht.2 (List.mem_cons_of_mem _ hm)⟩
      simp only [List.cons_append, List.cons.injEq] at h
      obtain ⟨rfl, hxy⟩ := ih hs' ht' h.2
      exact ⟨by rw [h.1], hxy⟩

theorem headerLine_split {b : UInt8} {m n : ℕ} {x y : Bytes}
    (h : headerLine b m ++ x = headerLine b n ++ y) : m = n ∧ x = y := by
  rw [headerLine, headerLine, List.cons_append, List.cons_append, List.cons.injEq] at h
  obtain ⟨ht, hxy⟩ := line_split (oneLine_decimalText m) (oneLine_decimalText n) h.2
  exact ⟨decimalText_injective ht, hxy⟩

theorem encodeArg_split {s t x y : Bytes} (h : encodeArg s ++ x = encodeArg t ++ y) : s = t ∧ x = y := by
  simp only [encodeArg, List.append_assoc] at h
  obtain ⟨hlen, hrest⟩ := headerLine_split h
  obtain ⟨hst, hxy⟩ := List.append_inj hrest hlen
  exact ⟨hst, by simpa using hxy⟩

/-- The header of a bulk string announces a length, unlike the null bulk. -/
theorem encodeArg_ne_null {s x y : Bytes} : encodeArg s ++ x ≠ [36, 45, 49, 13, 10] ++ y := by
  intro h
  cases hd : decimalText s.length with
  | nil => simp [encodeArg, headerLine, hd] at h
  | cons b t =>
    have hb : 48 ≤ b := (mem_decimalText (hd ▸ List.mem_cons_self)).1
    obtain ⟨rfl, -⟩ : b = 45 ∧ _ := by simpa [encodeArg, headerLine, hd] using h
    exact absurd hb (by decide)

/-- Lists of texts of which none begins another one. -/
theorem flatten_split {vs ws : List Bytes} {x y : Bytes} (hlen : vs.length = ws.length)
    (hsplit : ∀ v ∈ vs, ∀ w ∈ ws, ∀ x y, v ++ x = w ++ y → v = w ∧ x = y)
    (h : vs.flatten ++ x = ws.flatten ++ y) : vs = ws ∧ x = y := by
  induction vs generalizing ws with
  | nil =>
    obtain rfl : ws = [] := List.length_eq_zero_iff.mp hlen.symm
    exact ⟨rfl, h⟩
  | cons v vs ih =>
    cases ws with
    | nil => cases hlen
    | cons w ws =>
      rw [List.flatten_cons, List.flatten_cons, List.append_assoc, List.append_assoc] at h
      obtain ⟨rfl, hrest⟩ := hsplit v List.mem_cons_self w List.mem_cons_self _ _ h
      obtain ⟨rfl, hxy⟩ := ih (by simpa using hlen)
        (fun v' hv' w' hw' => hsplit v' (List.mem_cons_of_mem _ hv') w' (List.mem_cons_of_mem _ hw')) hrest
      exact ⟨rfl, hxy⟩

/-- No value is the beginning of another one. -/
theorem RespValue.split {v w x y : Bytes} (hv : RespValue v) (hw : RespValue w) (h : v ++ x = w ++ y) :
    v = w ∧ x = y := by
  induction hv generalizing w x y with
  | status hs =>
    cases hw with
    | status ht =>
      obtain ⟨rfl, hxy⟩ := line_split hs ht (List.cons.inj h).2
      exact ⟨rfl, hxy⟩
    | _ => simp [encodeArg, headerLine] at h
  | error hs =>
    cases hw with
    | error ht =>
      obtain ⟨rfl, hxy⟩ := line_split hs ht (List.cons.inj h).2
      exact ⟨rfl, hxy⟩
    | _ => simp [encodeArg, headerLine] at h
  | integer m =>
    cases hw with
    | integer n =>
      obtain ⟨ht, hxy⟩ := line_split (oneLine_integerText m) (oneLine_integerText n) (List.cons.inj h).2
      exact ⟨by rw [ht], hxy⟩
    | _ => simp [encodeArg, headerLine] at h
  | bulk s =>
    cases hw with
    | bulk t =>
      obtain ⟨rfl, hxy⟩ := encodeArg_split h
      exact ⟨rfl, hxy⟩
    | null => exact absurd h encodeArg_ne_null
    | _ => simp [encodeArg, headerLine] at h
  | null =>
    cases hw with
    | bulk t => exact absurd h.symm encodeArg_ne_null
    | null => exact ⟨rfl, List.append_cancel_left h⟩
    | _ => simp [headerLine] at h
  | array hvs ih =>
    cases hw with
    | array hws =>
      rw [List.append_assoc, List.append_assoc] at h
      obtain ⟨hlen, hrest⟩ := headerLine_split h
      obtain ⟨rfl, hxy⟩ := flatten_split hlen (fun v hv w hw x y => ih v hv (hws w hw)) hrest
      exact ⟨rfl, hxy⟩
    | _ => simp [encodeArg, headerLine] at h

theorem RespValue.ne_nil {v : Bytes} (h : RespValue v) : v ≠ [] := by
  cases h <;> simp [encodeArg, headerLine]

/-- A stream of values can be cut in only one way. -/
theorem RespValue.flatten_unique {vs ws : List Bytes} (hvs : ∀ v ∈ vs, RespValue v)
    (hws : ∀ w ∈ ws, RespValue w) (h : vs.flatten = ws.flatten) : vs = ws := by
  induction vs generalizing ws with
  | nil =>
    cases ws with
    | nil => rfl
    | cons w ws =>
      have hnil : [] = w ++ ws.flatten := h
      exact absurd (List.append_eq_nil_iff.mp hnil.symm).1 (hws w List.mem_cons_self).ne_nil
  | cons v vs ih =>
    cases ws with
    | nil =>
      have hnil : v ++ vs.flatten = [] := h
      exact absurd (List.append_eq_nil_iff.mp hnil).1 (hvs v List.mem_cons_self).ne_nil
    | cons w ws =>
      rw [List.flatten_cons, List.flatten_cons] at h
      obtain ⟨rfl, hrest⟩ := (hvs v List.mem_cons_self).split (hws w List.mem_cons_self) h
      rw [ih (fun v' hv' => hvs v' (List.mem_cons_of_mem _ hv'))
        (fun w' hw' => hws w' (List.mem_cons_of_mem _ hw')) hrest]

end RhinoRox
