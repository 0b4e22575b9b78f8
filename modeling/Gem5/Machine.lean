import Mathlib

/-!
# Runs of a machine that can fail

A step function takes an operation and gives the next state or a failure, and a run stops at the
first failure. What one step keeps a run keeps (`run_inv`), also when the operations are only known
to be allowed in the state each is made in (`Admits.inv`).
-/

namespace Machine

universe u

variable {σ ο ε : Type*} {α β : Type u}

/-- A failed sequence gives no value, so a value comes from both of its parts. -/
theorem bind_ok {x : Except ε α} {f : α → Except ε β} {b : β} :
    (x >>= f) = .ok b ↔ ∃ a, x = .ok a ∧ f a = .ok b := by
  cases x with
  | error e => simp [bind, Except.bind]
  | ok a => simp [bind, Except.bind]

theorem bind_pure_ok {x : Except ε α} {f : α → β} {b : β} :
    (x >>= fun a => .ok (f a)) = .ok b ↔ ∃ a, x = .ok a ∧ f a = b := by
  simp only [bind_ok, Except.ok.injEq]

theorem ok_bind (a : α) (f : α → Except ε β) : ((.ok a : Except ε α) >>= f) = f a := rfl

variable (step : σ → ο → Except ε σ)

/-- The state after a list of operations, or the first failure. -/
def run : σ → List ο → Except ε σ
  | s, [] => .ok s
  | s, o :: os => step s o >>= fun s' => run s' os

/-- Every operation of the list is allowed in the state the run makes it in. -/
def Admits (C : σ → ο → Prop) : σ → List ο → Prop
  | _, [] => True
  | s, o :: os => C s o ∧ ∀ s', step s o = .ok s' → Admits C s' os

variable {step}

theorem run_cons {s t : σ} {o : ο} {os : List ο} :
    run step s (o :: os) = .ok t ↔ ∃ s', step s o = .ok s' ∧ run step s' os = .ok t :=
  bind_ok

theorem run_append {t : σ} : ∀ (os os' : List ο) {s : σ},
    run step s (os ++ os') = .ok t ↔ ∃ u, run step s os = .ok u ∧ run step u os' = .ok t
  | [], os', s => by simp [run]
  | o :: os, os', s => by
    rw [List.cons_append, run_cons]
    simp only [run_cons, run_append os os']
    constructor
    · rintro ⟨s', h, u, hu, ht⟩
      exact ⟨u, ⟨s', h, hu⟩, ht⟩
    · rintro ⟨u, ⟨s', h, hu⟩, ht⟩
      exact ⟨s', h, u, hu, ht⟩

theorem run_snoc {s t : σ} {o : ο} {os : List ο} :
    run step s (os ++ [o]) = .ok t ↔ ∃ u, run step s os = .ok u ∧ step u o = .ok t := by
  rw [run_append]
  refine exists_congr fun u => and_congr_right fun _ => ?_
  rw [run_cons]
  simp only [run, Except.ok.injEq, exists_eq_right]

theorem admits_append {C : σ → ο → Prop} : ∀ {os os' : List ο} {s : σ},
    Admits step C s (os ++ os') →
      Admits step C s os ∧ ∀ u, run step s os = .ok u → Admits step C u os'
  | [], os', s, h => ⟨trivial, fun u hu => by
      cases hu
      exact h⟩
  | o :: os, os', s, ⟨hC, h⟩ => by
    refine ⟨⟨hC, fun s' hs' => (admits_append (h s' hs')).1⟩, fun u hu => ?_⟩
    obtain ⟨s', hs', hu⟩ := run_cons.1 hu
    exact (admits_append (h s' hs')).2 u hu

theorem admits_of_forall {C : σ → ο → Prop} {P : ο → Prop} (hC : ∀ s o, P o → C s o) :
    ∀ {os : List ο} {s : σ}, (∀ o ∈ os, P o) → Admits step C s os
  | [], _, _ => trivial
  | o :: _, s, h => ⟨hC s o (h o List.mem_cons_self), fun _ _ =>
      admits_of_forall hC fun o' ho' => h o' (List.mem_cons_of_mem _ ho')⟩

/-- What every allowed step keeps, a run of allowed steps keeps. -/
theorem Admits.inv {C : σ → ο → Prop} {I : σ → Prop}
    (hI : ∀ s o s', I s → C s o → step s o = .ok s' → I s') :
    ∀ {os : List ο} {s t : σ}, Admits step C s os → I s → run step s os = .ok t → I t
  | [], s, t, _, hs, ht => by
    cases ht
    exact hs
  | o :: os, s, t, ⟨hC, h⟩, hs, ht => by
    obtain ⟨s', hs', ht⟩ := run_cons.1 ht
    exact Admits.inv hI (h s' hs') (hI s o s' hs hC hs') ht

theorem run_inv {I : σ → Prop} (hI : ∀ s o s', I s → step s o = .ok s' → I s') {os : List ο}
    {s t : σ} (hs : I s) (ht : run step s os = .ok t) : I t :=
  Admits.inv (C := fun _ _ => True) (fun s o s' h _ => hI s o s' h)
    (admits_of_forall (P := fun _ => True) (fun _ _ _ => trivial) fun _ _ => trivial) hs ht

/-- What every step keeps about the state and the operations so far holds at the end of a run. -/
theorem run_hist {I : List ο → σ → Prop} {s : σ} (h₀ : I [] s)
    (hI : ∀ os u o u', run step s os = .ok u → I os u → step u o = .ok u' → I (os ++ [o]) u')
    {os : List ο} {t : σ} (ht : run step s os = .ok t) : I os t := by
  induction os using List.reverseRecOn generalizing t with
  | nil =>
    cases ht
    exact h₀
  | append_singleton os o ih =>
    obtain ⟨u, hu, hst⟩ := run_snoc.1 ht
    exact hI os u o t hu (ih hu) hst

def Reaches (step : σ → ο → Except ε σ) (s t : σ) : Prop := ∃ os, run step s os = .ok t

namespace Reaches

theorem refl (s : σ) : Reaches step s s := ⟨[], rfl⟩

theorem single {s t : σ} {o : ο} (h : step s o = .ok t) : Reaches step s t :=
  ⟨[o], run_cons.2 ⟨t, h, rfl⟩⟩

theorem trans {s t u : σ} : Reaches step s t → Reaches step t u → Reaches step s u
  | ⟨os, h⟩, ⟨os', h'⟩ => ⟨os ++ os', (run_append os os').2 ⟨t, h, h'⟩⟩

theorem inv {I : σ → Prop} (hI : ∀ s o s', I s → step s o = .ok s' → I s') {s t : σ} (hs : I s) :
    Reaches step s t → I t
  | ⟨_, h⟩ => run_inv hI hs h

end Reaches

instance Admits.dec {C : σ → ο → Prop} [∀ s o, Decidable (C s o)] :
    ∀ (s : σ) (os : List ο), Decidable (Admits step C s os)
  | _, [] => .isTrue trivial
  | s, o :: os =>
    match h : step s o with
    | .ok s' =>
      have := Admits.dec (C := C) s' os
      decidable_of_iff (C s o ∧ Admits step C s' os) (by simp [Admits, h])
    | .error _ => decidable_of_iff (C s o) (by simp [Admits, h])

/-- The computation ends without a failure, in a state with the property. -/
def Ends (x : Except ε σ) (P : σ → Prop) : Prop :=
  match x with
  | .ok t => P t
  | .error _ => False

instance Ends.dec {P : σ → Prop} [DecidablePred P] : ∀ x : Except ε σ, Decidable (Ends x P)
  | .ok t => inferInstanceAs (Decidable (P t))
  | .error _ => .isFalse id

theorem Ends.exists {P : σ → Prop} : ∀ {x : Except ε σ}, Ends x P → ∃ t, x = .ok t ∧ P t
  | .ok t, h => ⟨t, rfl, h⟩

namespace Ends

variable {Q R : α → Prop} {x : Except ε α}

theorem of_ok {a : α} (hx : x = .ok a) (ha : Q a) : Ends x Q := by
  rwa [hx]

theorem result {a : α} (h : Ends x Q) (hx : x = .ok a) : Q a := by
  rwa [hx] at h

theorem mono (h : Ends x Q) (hQ : ∀ a, Q a → R a) : Ends x R := by
  obtain ⟨a, hx, ha⟩ := h.exists
  exact of_ok hx (hQ a ha)

theorem bind {f : α → Except ε β} {R : β → Prop} (h : Ends x Q) (hf : ∀ a, Q a → Ends (f a) R) :
    Ends (x >>= f) R := by
  obtain ⟨a, rfl, ha⟩ := h.exists
  exact hf a ha

end Ends

/-- If what is kept lets every allowed step succeed, a run of allowed steps succeeds. -/
theorem Admits.ends {C : σ → ο → Prop} {I : List ο → σ → Prop} {s : σ} (h₀ : I [] s)
    (hI : ∀ os u o, I os u → C u o → Ends (step u o) (I (os ++ [o]))) {os : List ο}
    (h : Admits step C s os) : Ends (run step s os) (I os) := by
  induction os using List.reverseRecOn with
  | nil => exact h₀
  | append_singleton os o ih =>
    obtain ⟨hos, ho⟩ := admits_append h
    obtain ⟨u, hu, hIu⟩ := (ih hos).exists
    obtain ⟨t, ht, hIt⟩ := (hI os u o hIu (ho u hu).1).exists
    have hrun := run_snoc.2 ⟨u, hu, ht⟩
    rwa [hrun]

/-- If the computation does not fail, its result has the property. -/
def Gives (x : Except ε σ) (P : σ → Prop) : Prop :=
  match x with
  | .ok t => P t
  | .error _ => True

instance Gives.dec {P : σ → Prop} [DecidablePred P] : ∀ x : Except ε σ, Decidable (Gives x P)
  | .ok t => inferInstanceAs (Decidable (P t))
  | .error _ => .isTrue trivial

theorem Gives.result {P : σ → Prop} {x : Except ε σ} {t : σ} (h : Gives x P) (hx : x = .ok t) :
    P t := by
  rwa [hx] at h

/-- The computation ends in a state with the property, or it fails in the given way. -/
def EndsUnless (e : ε) (x : Except ε σ) (P : σ → Prop) : Prop :=
  match x with
  | .ok t => P t
  | .error e' => e' = e

instance EndsUnless.dec [DecidableEq ε] {e : ε} {P : σ → Prop} [DecidablePred P] :
    ∀ x : Except ε σ, Decidable (EndsUnless e x P)
  | .ok t => inferInstanceAs (Decidable (P t))
  | .error e' => inferInstanceAs (Decidable (e' = e))

theorem EndsUnless.fails {e : ε} :
    ∀ {x : Except ε σ}, EndsUnless e x (fun _ => False) → x = .error e
  | .error _, h => congrArg _ h

namespace EndsUnless

variable {Q R : α → Prop} {x : Except ε α} {e : ε}

theorem result {a : α} (h : EndsUnless e x Q) (hx : x = .ok a) : Q a := by
  rwa [hx] at h

theorem error {e' : ε} (h : EndsUnless e x Q) (hx : x = .error e') : e' = e := by
  rwa [hx] at h

theorem mono (h : EndsUnless e x Q) (hQ : ∀ a, Q a → R a) : EndsUnless e x R := by
  cases x with
  | error e' => exact h
  | ok a => exact hQ a h

theorem bind {f : α → Except ε β} {R : β → Prop} (h : EndsUnless e x Q)
    (hf : ∀ a, Q a → EndsUnless e (f a) R) : EndsUnless e (x >>= f) R := by
  cases x with
  | error e' => exact h
  | ok a => exact hf a h

theorem run {I : σ → Prop} {D : ο → Prop}
    (hI : ∀ s o, I s → D o → EndsUnless e (step s o) I) : ∀ {os : List ο} {s : σ},
      (∀ o ∈ os, D o) → I s → EndsUnless e (run step s os) I
  | [], _, _, hs => hs
  | o :: os, s, hD, hs => by
    have hst := hI s o hs (hD o List.mem_cons_self)
    unfold Machine.run
    cases hx : step s o with
    | error e' => exact error hst hx
    | ok s' =>
      exact run hI (fun o' ho' => hD o' (List.mem_cons_of_mem _ ho')) (result hst hx)

end EndsUnless

/-- If the computation fails, it is in one of the given ways. -/
def FailsOnly (E : ε → Prop) (x : Except ε α) : Prop := ∀ e, x = .error e → E e

namespace FailsOnly

variable {E : ε → Prop} {x : Except ε α}

theorem of_ok {a : α} (hx : x = .ok a) : FailsOnly E x := by
  rintro e rfl
  cases hx

theorem of_ends {Q : α → Prop} : ∀ {x : Except ε α}, Ends x Q → FailsOnly E x
  | .ok _, _ => of_ok rfl

theorem bind {f : α → Except ε β} (h : FailsOnly E x) (hf : ∀ a, x = .ok a → FailsOnly E (f a)) :
    FailsOnly E (x >>= f) := by
  cases x with
  | error e =>
    rintro e' he
    cases he
    exact h e rfl
  | ok a => exact hf a rfl

end FailsOnly

/-- If from every state with a rank some allowed operation leads to the goal or to a state of lower
rank, a run of allowed operations leads to the goal. -/
theorem run_of_rank {ρ : Type*} [Preorder ρ] [WellFoundedLT ρ] {C : σ → ο → Prop} {D : ο → Prop}
    {I : σ → ρ → Prop} {G : σ → Prop}
    (h : ∀ s r, I s r → ∃ o, D o ∧ C s o ∧ ∃ s', step s o = .ok s' ∧ (G s' ∨ ∃ r' < r, I s' r')) :
    ∀ {s : σ} {r : ρ}, I s r → ∃ os t, (∀ o ∈ os, D o) ∧ Admits step C s os
      ∧ run step s os = .ok t ∧ G t := by
  intro s r
  induction r using WellFoundedLT.induction generalizing s with
  | ind r ih =>
    intro hs
    obtain ⟨o, hD, hC, s', hs', hgoal | ⟨r', hlt, hr'⟩⟩ := h s r hs
    · refine ⟨[o], s', fun o' ho' => ?_, ⟨hC, fun _ _ => trivial⟩, run_cons.2 ⟨s', hs', rfl⟩, hgoal⟩
      rwa [List.mem_singleton.1 ho']
    · obtain ⟨os, t, hDs, hCs, ht, hG⟩ := ih r' hlt hr'
      refine ⟨o :: os, t, fun o' ho' => ?_, ⟨hC, fun u hu => ?_⟩, run_cons.2 ⟨s', hs', ht⟩, hG⟩
      · rcases List.mem_cons.1 ho' with rfl | ho'
        · exact hD
        · exact hDs o' ho'
      · obtain rfl := Except.ok.inj (hs'.symm.trans hu)
        exact hCs

end Machine
