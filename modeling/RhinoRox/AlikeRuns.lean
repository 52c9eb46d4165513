import RhinoRox.FreedMemory
import RhinoRox.MinheapMap

/-!
# Runs that end alike

Two runs on different states end alike if both return and their results are related, or if
both end in the same fault. Runs that use a freed object are left out: whether an object is
live is a question of reference counts, which the relation need not know.
-/

namespace RhinoRox

variable {α β γ δ : Type}

def Alike (R : α → β → Prop) (x : Exec α) (y : Exec β) : Prop :=
  NoFreed x → NoFreed y → (∃ a b, x = .ok a ∧ y = .ok b ∧ R a b) ∨ ∃ e, x = .error e ∧ y = .error e

namespace Alike
variable {R : α → β → Prop} {S : γ → δ → Prop} {x : Exec α} {y : Exec β}

theorem ok {a : α} {b : β} (hx : x = .ok a) (hy : y = .ok b) (h : R a b) : Alike R x y :=
  fun _ _ => .inl ⟨a, b, hx, hy, h⟩

theorem error {e : Fault} (hx : x = .error e) (hy : y = .error e) : Alike R x y :=
  fun _ _ => .inr ⟨e, hx, hy⟩

theorem pure {a : α} {b : β} (h : R a b) : Alike R (Pure.pure a) (Pure.pure b) := ok rfl rfl h

/-- The first steps end alike, and so does what follows on related results. -/
theorem bind {f : α → Exec γ} {g : β → Exec δ} (h : Alike R x y)
    (hf : ∀ a b, x = .ok a → y = .ok b → R a b → Alike S (f a) (g b)) : Alike S (x >>= f) (y >>= g) := by
  intro hx hy
  have hx₁ : NoFreed x := by
    rintro rfl
    exact hx rfl
  have hy₁ : NoFreed y := by
    rintro rfl
    exact hy rfl
  obtain ⟨a, b, rfl, rfl, hab⟩ | ⟨e, rfl, rfl⟩ := h hx₁ hy₁
  · exact hf a b rfl rfl hab hx hy
  · exact .inr ⟨e, rfl, rfl⟩

/-- The first steps end alike with the same result. -/
theorem bind_eq {x y : Exec α} {f : α → Exec γ} {g : α → Exec δ} (h : Alike Eq x y) (hf : ∀ a, Alike S (f a) (g a)) :
    Alike S (x >>= f) (y >>= g) := by
  refine bind h fun a b _ _ hab => ?_
  rw [← hab]
  exact hf a

theorem of_map {f : α → γ} {g : β → γ} (h : x.map f = y.map g) : Alike (fun a b => f a = g b) x y :=
  fun _ _ => Exec.map_cases h

/-- A run that can only go wrong by using a freed object. -/
def Total (x : Exec α) : Prop := ∀ e, x = .error e → e = .freedMemory

theorem Total.pure (a : α) : Total (Pure.pure a : Exec α) := by
  intro e he
  cases he

theorem Total.bind {f : α → Exec γ} (h : Total x) (hf : ∀ a, Total (f a)) : Total (x >>= f) := by
  cases x with
  | error e =>
    intro e' he
    obtain rfl := Except.error.inj he
    exact h e rfl
  | ok a => exact hf a

theorem of_total (hx : Total x) (hy : Total y) : Alike (fun _ _ => True) x y := by
  intro hfx hfy
  cases x with
  | error e => exact absurd (congrArg Except.error (hx e rfl)) hfx
  | ok a =>
    cases y with
    | error e => exact absurd (congrArg Except.error (hy e rfl)) hfy
    | ok b => exact .inl ⟨a, b, rfl, rfl, trivial⟩

/-- The first steps are bookkeeping: what follows ends alike whatever they return. -/
theorem bind_total {f : α → Exec γ} {g : β → Exec δ} (hx : Total x) (hy : Total y) (hf : ∀ a b, Alike S (f a) (g b)) :
    Alike S (x >>= f) (y >>= g) :=
  bind (of_total hx hy) fun a b _ _ _ => hf a b

end Alike

/-! ## Reference counts -/

section Counts
open Alike
variable (refs : Refs)

theorem refcount_total (a : ℕ) : Total (refcount refs a) := by
  rw [refcount]
  split
  · exact .pure _
  · cases refs.lookup a with
    | none =>
      intro e he
      exact (Except.error.inj he).symm
    | some n => exact .pure _

theorem incrRefCount_total (a : ℕ) : Total (incrRefCount refs a) := by
  refine .bind (refcount_total refs a) fun n => ?_
  split <;> exact .pure _

theorem decrString_total (o : StrObj) : Total (decrString refs o) := by
  refine .bind (refcount_total refs o.addr) fun n => ?_
  split
  · exact .pure _
  · split
    · exact .bind (.pure _) fun _ => .pure _
    · exact .pure _

theorem decrStrings_total (os : List StrObj) : Total (decrStrings refs os) := by
  induction os generalizing refs with
  | nil => exact .pure _
  | cons o os ih => exact .bind (decrString_total refs o) fun refs' => ih refs'

theorem applyRefOps_total (ops : List RefOp) : Total (applyRefOps refs ops) := by
  induction ops generalizing refs with
  | nil => exact .pure _
  | cons op ops ih =>
    cases op with
    | incr o => exact .bind (incrRefCount_total refs o.addr) fun refs' => ih refs'
    | decr o => exact .bind (decrString_total refs o) fun refs' => ih refs'

end Counts

/-! ## Encodings -/

/-- What `tryObjectEncoding` makes of a string that spells no integer. -/
def embstrOf : StrEnc → StrEnc
  | .raw s => if s.length ≤ objEncodingEmbstrSizeLimit then .embstr s else .raw s
  | enc => enc

/-- What `tryObjectEncoding` makes of a string with one reference. -/
def encodingOf (enc : StrEnc) : StrEnc :=
  match if enc.bytes.length ≤ 21 then string2l enc.bytes else none with
  | some value => .int value
  | none => embstrOf enc

theorem encodeEmbstr_enc {G : Type} (env : ServerEnv G) {refs refs' : Refs} {o o' : StrObj}
    (run : encodeEmbstr env refs o = .ok (o', refs')) : o'.enc = embstrOf o.enc := by
  obtain ⟨a, enc⟩ := o
  cases enc with
  | raw s =>
    simp only [encodeEmbstr, embstrOf] at run ⊢
    by_cases hlen : s.length ≤ objEncodingEmbstrSizeLimit
    · rw [if_pos hlen] at run ⊢
      obtain ⟨refs₁, -, run⟩ := Exec.bind_eq_ok.mp run
      obtain ⟨rfl, -⟩ := Prod.mk.inj (Except.ok.inj run)
      rfl
    · rw [if_neg hlen] at run ⊢
      obtain ⟨rfl, -⟩ := Prod.mk.inj (Except.ok.inj run)
      rfl
  | embstr s =>
    obtain ⟨rfl, -⟩ := Prod.mk.inj (Except.ok.inj run)
    rfl
  | int n =>
    obtain ⟨rfl, -⟩ := Prod.mk.inj (Except.ok.inj run)
    rfl

theorem encodeInteger_enc {G : Type} (env : ServerEnv G) {refs refs' : Refs} {o o' : StrObj} {value : Int64}
    (run : encodeInteger env refs o value = .ok (o', refs')) : o'.enc = .int value := by
  rw [encodeInteger] at run
  split at run
  · rename_i hv
    obtain ⟨refs₁, -, run⟩ := Exec.bind_eq_ok.mp run
    obtain ⟨refs₂, -, run⟩ := Exec.bind_eq_ok.mp run
    obtain ⟨rfl, -⟩ := Prod.mk.inj (Except.ok.inj run)
    exact sharedInteger_enc hv.2.1
  · obtain ⟨rfl, -⟩ := Prod.mk.inj (Except.ok.inj run)
    rfl

/-- The encoding of a string with one reference is a function of its old one. -/
theorem tryObjectEncoding_enc {G : Type} (env : ServerEnv G) {refs refs' : Refs} {o o' : StrObj}
    (hs : sdsEncodedObject o.enc = true) (hone : refcount refs o.addr = .ok 1)
    (run : tryObjectEncoding env refs o = .ok (o', refs')) : o'.enc = encodingOf o.enc := by
  simp only [tryObjectEncoding, hs, Bool.not_true, Bool.false_eq_true, if_false, hone, Exec.ok_bind] at run
  rw [if_neg (by decide)] at run
  rw [encodingOf]
  split at run
  · rename_i hlen
    rw [if_pos hlen]
    cases hint : string2l o.enc.bytes with
    | none =>
      rw [hint] at run
      exact encodeEmbstr_enc env run
    | some value =>
      rw [hint] at run
      exact encodeInteger_enc env run
  · rename_i hlen
    rw [if_neg hlen]
    exact encodeEmbstr_enc env run

theorem tryObjectEncoding_total {G : Type} (env : ServerEnv G) (refs : Refs) (o : StrObj) :
    Alike.Total (tryObjectEncoding env refs o) := by
  have hembstr : Alike.Total (encodeEmbstr env refs o) := by
    rw [encodeEmbstr]
    split
    · split
      · exact .bind (decrString_total _ o) fun _ => .pure _
      · exact .pure _
    · exact .pure _
  have hinteger (value : Int64) : Alike.Total (encodeInteger env refs o value) := by
    rw [encodeInteger]
    split
    · exact .bind (decrString_total _ o) fun _ => .bind (incrRefCount_total _ _) fun _ => .pure _
    · exact .pure _
  rw [tryObjectEncoding]
  split
  · exact .pure _
  · refine .bind (refcount_total refs o.addr) fun n => ?_
    split
    · exact .pure _
    · split
      · cases string2l o.enc.bytes with
        | none => exact hembstr
        | some value => exact hinteger value
      · exact hembstr

/-- Equal arguments are encoded alike. -/
theorem tryObjectEncoding_alike {G : Type} (env env' : ServerEnv G) {refs refs' : Refs} {o o' : StrObj}
    (hs : sdsEncodedObject o.enc = true) (henc : o.enc = o'.enc) (hone : refcount refs o.addr = .ok 1)
    (hone' : refcount refs' o'.addr = .ok 1) :
    Alike (fun r r' => r.1.enc = r'.1.enc) (tryObjectEncoding env refs o) (tryObjectEncoding env' refs' o') := by
  intro hx hy
  obtain ⟨⟨r, refs₁⟩, ⟨r', refs₁'⟩, hr, hr', -⟩ | herr :=
    Alike.of_total (tryObjectEncoding_total env refs o) (tryObjectEncoding_total env' refs' o') hx hy
  · refine .inl ⟨_, _, hr, hr', ?_⟩
    have hleft : r.enc = encodingOf o.enc := tryObjectEncoding_enc env hs hone hr
    have hright : r'.enc = encodingOf o'.enc := tryObjectEncoding_enc env' (henc ▸ hs) hone' hr'
    exact hleft.trans (henc ▸ hright.symm)
  · exact .inr herr

end RhinoRox
