import Mathlib.Logic.Basic

/-!
# Computations on a state that may fail

`EStateM` runs on a state and keeps what was done to it when it fails. A triple
says what holds of the state after a computation, whether it returns or throws;
an invariant is kept by a computation that is put together from computations
that keep it.
-/
namespace Effect

variable {ε σ α β : Type}

/-- Started where `P` holds, `x` ends where `Q` holds of the value it returns, or where `E` holds
if it throws. -/
def Triple (P : σ → Prop) (x : EStateM ε σ α) (Q : α → σ → Prop) (E : σ → Prop) : Prop :=
  ∀ s, P s → match x s with
    | .ok a s' => Q a s'
    | .error _ s' => E s'

/-- The computation keeps the invariant, whether it returns or throws. -/
def Keeps (I : σ → Prop) (x : EStateM ε σ α) : Prop := Triple I x (fun _ => I) I

/-- What a computation returns or throws, as a value. -/
def caught (x : EStateM ε σ α) : EStateM ε σ (Except ε α) := fun s =>
  match x s with
  | .ok a s' => .ok (.ok a) s'
  | .error e s' => .ok (.error e) s'

theorem bind_ok {x : EStateM ε σ α} {a : α} {s s' : σ} (h : x s = .ok a s') (f : α → EStateM ε σ β) :
    (x >>= f) s = f a s' := by
  show EStateM.bind x f s = f a s'
  rw [EStateM.bind, h]

theorem get_bind (f : σ → EStateM ε σ β) (s : σ) : (get >>= f) s = f s s := rfl

theorem modify_bind (g : σ → σ) (f : PUnit → EStateM ε σ β) (s : σ) : (modify g >>= f) s = f ⟨⟩ (g s) := rfl

/-- The state after the computation. -/
def final (x : EStateM ε σ α) (s : σ) : σ :=
  match x s with
  | .ok _ s' => s'
  | .error _ s' => s'

theorem final_congr {x y : EStateM ε σ α} {s s' : σ} (h : x s = y s') : final x s = final y s' := by
  rw [final, h, final]

/-- What a triple promises of both ends holds of the final state. -/
theorem Triple.final {P I : σ → Prop} {x : EStateM ε σ α} (h : Triple P x (fun _ => I) I) {s : σ} (hs : P s) :
    I (final x s) := by
  have hx := h s hs
  unfold Effect.final
  cases hr : x s <;> rw [hr] at hx <;> exact hx

theorem Keeps.final {I : σ → Prop} {x : EStateM ε σ α} (h : Keeps I x) {s : σ} (hs : I s) :
    I (final x s) := Triple.final h hs

theorem Triple.bind {P : σ → Prop} {x : EStateM ε σ α} {R : α → σ → Prop} {f : α → EStateM ε σ β}
    {Q : β → σ → Prop} {E : σ → Prop} (hx : Triple P x R E) (hf : ∀ a, Triple (R a) (f a) Q E) :
    Triple P (x >>= f) Q E := by
  intro s hs
  have h := hx s hs
  show match EStateM.bind x f s with
    | .ok a s' => Q a s'
    | .error _ s' => E s'
  unfold EStateM.bind
  cases hr : x s with
  | ok a s' =>
    rw [hr] at h
    exact hf a s' h
  | error e s' =>
    rw [hr] at h
    exact h

/-- Weaker assumptions give stronger triples. -/
theorem Triple.mono {P P' : σ → Prop} {x : EStateM ε σ α} {Q Q' : α → σ → Prop} {E E' : σ → Prop}
    (h : Triple P x Q E) (hP : ∀ s, P' s → P s) (hQ : ∀ a s, Q a s → Q' a s) (hE : ∀ s, E s → E' s) :
    Triple P' x Q' E' := by
  intro s hs
  have hx := h s (hP s hs)
  cases hr : x s with
  | ok a s' =>
    rw [hr] at hx
    exact hQ a s' hx
  | error e s' =>
    rw [hr] at hx
    exact hE s' hx

/-- What one triple says of the value and another of the state holds together. -/
theorem Triple.and {P P' : σ → Prop} {x : EStateM ε σ α} {Q Q' : α → σ → Prop} {E E' : σ → Prop}
    (h : Triple P x Q E) (h' : Triple P' x Q' E') :
    Triple (fun s => P s ∧ P' s) x (fun a s => Q a s ∧ Q' a s) (fun s => E s ∧ E' s) := by
  intro s hs
  have hx := h s hs.1
  have hx' := h' s hs.2
  cases hr : x s with
  | ok a s' =>
    rw [hr] at hx hx'
    exact ⟨hx, hx'⟩
  | error e s' =>
    rw [hr] at hx hx'
    exact ⟨hx, hx'⟩

/-- A fact that does not speak of the state is a hypothesis. -/
theorem Triple.assume {P : σ → Prop} {p : Prop} {x : EStateM ε σ α} {Q : α → σ → Prop} {E : σ → Prop}
    (h : p → Triple P x Q E) : Triple (fun s => P s ∧ p) x Q E :=
  fun s hs => h hs.2 s hs.1

theorem Triple.assume_left {P : σ → Prop} {p : Prop} {x : EStateM ε σ α} {Q : α → σ → Prop} {E : σ → Prop}
    (h : p → Triple P x Q E) : Triple (fun s => p ∧ P s) x Q E :=
  fun s hs => h hs.1 s hs.2

/-- What is read is the state there. -/
theorem Triple.get {P : σ → Prop} {f : σ → EStateM ε σ β} {Q : β → σ → Prop} {E : σ → Prop}
    (h : ∀ w, Triple (fun s => P s ∧ s = w) (f w) Q E) : Triple P (get >>= f) Q E :=
  fun s hs => h s s ⟨hs, rfl⟩

/-- A computation started at one state ends at its final state. -/
theorem Triple.start (x : EStateM ε σ α) (s₀ : σ) :
    Triple (· = s₀) x (fun _ s => s = Effect.final x s₀) (fun s => s = Effect.final x s₀) := by
  rintro s rfl
  unfold Effect.final
  cases x s <;> rfl

theorem Triple.throw {P : σ → Prop} {Q : α → σ → Prop} (e : ε) : Triple P (throw e : EStateM ε σ α) Q P := fun _ h => h

theorem Triple.pure {P E : σ → Prop} {Q : α → σ → Prop} {a : α} (h : ∀ s, P s → Q a s) :
    Triple P (pure a : EStateM ε σ α) Q E := h

theorem Triple.caught {P : σ → Prop} {x : EStateM ε σ α} {Q : α → σ → Prop} {E F : σ → Prop} (h : Triple P x Q E) :
    Triple P (caught x) (fun r s => match r with | .ok a => Q a s | .error _ => E s) F := by
  intro s hs
  have hx := h s hs
  unfold Effect.caught
  cases hr : x s <;> rw [hr] at hx <;> exact hx

theorem Keeps.bind {I : σ → Prop} {x : EStateM ε σ α} {f : α → EStateM ε σ β} (hx : Keeps I x)
    (hf : ∀ a, Keeps I (f a)) : Keeps I (x >>= f) := Triple.bind hx hf

theorem Keeps.pure {I : σ → Prop} (a : α) : Keeps I (pure a : EStateM ε σ α) := fun _ h => h

theorem Keeps.throw {I : σ → Prop} (e : ε) : Keeps I (throw e : EStateM ε σ α) := fun _ h => h

theorem Keeps.get {I : σ → Prop} : Keeps I (get : EStateM ε σ σ) := fun _ h => h

theorem Keeps.modify {I : σ → Prop} {f : σ → σ} (h : ∀ s, I s → I (f s)) :
    Keeps I (modify f : EStateM ε σ PUnit) := h

/-- Of two properties that are kept, the one that holds is kept. -/
theorem Keeps.or {I J : σ → Prop} {x : EStateM ε σ α} (hI : Keeps I x) (hJ : Keeps J x) :
    Keeps (fun s => I s ∨ J s) x := by
  intro s hs
  rcases hs with h | h
  · exact hI.mono (fun _ h => h) (fun _ _ => Or.inl) (fun _ => Or.inl) s h
  · exact hJ.mono (fun _ h => h) (fun _ _ => Or.inr) (fun _ => Or.inr) s h

theorem keeps_true (x : EStateM ε σ α) : Keeps (fun _ => True) x := by
  intro s _
  cases x s <;> trivial

/-- Every computation of a list is run in turn. -/
theorem Triple.forM {A E : σ → Prop} {f : α → EStateM ε σ PUnit} {as : List α}
    (h : ∀ a ∈ as, Triple A (f a) (fun _ => A) E) : Triple A (as.forM f) (fun _ => A) E := by
  induction as with
  | nil => exact fun _ h => h
  | cons a as ih =>
    exact Triple.bind (h a List.mem_cons_self) fun _ => ih fun b hb => h b (List.mem_cons_of_mem a hb)

theorem Keeps.forM {I : σ → Prop} {f : α → EStateM ε σ PUnit} {as : List α} (h : ∀ a ∈ as, Keeps I (f a)) :
    Keeps I (as.forM f) := Triple.forM h

/-- One computation of a list leads from `A` to `D`, and the others keep both. -/
theorem Triple.forM_once {A D E : σ → Prop} {f : α → EStateM ε σ PUnit} {key : α → Bool} {as : List α} {a : α}
    (has : as.filter key = [a]) (hA : ∀ b ∈ as, key b = false → Triple A (f b) (fun _ => A) E)
    (hD : ∀ b ∈ as, key b = false → Triple D (f b) (fun _ => D) E) (ha : Triple A (f a) (fun _ => D) E) :
    Triple A (as.forM f) (fun _ => D) E := by
  induction as with
  | nil => cases has
  | cons b as ih =>
    cases hb : key b with
    | true =>
      rw [List.filter_cons_of_pos hb, List.cons.injEq] at has
      obtain ⟨rfl, has⟩ := has
      have hrest : ∀ c ∈ as, Triple D (f c) (fun _ => D) E := by
        intro c hc
        have hkey := List.filter_eq_nil_iff.mp has c hc
        exact hD c (List.mem_cons_of_mem b hc) (Bool.eq_false_iff.mpr hkey)
      exact Triple.bind ha fun _ => Triple.forM hrest
    | false =>
      rw [List.filter_cons_of_neg (Bool.eq_false_iff.mp hb)] at has
      refine Triple.bind (hA b List.mem_cons_self hb) fun _ => ih has ?_ ?_
      · exact fun c hc => hA c (List.mem_cons_of_mem b hc)
      · exact fun c hc => hD c (List.mem_cons_of_mem b hc)

end Effect
