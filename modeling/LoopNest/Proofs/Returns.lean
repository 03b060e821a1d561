import LoopNest.Failure
import Mathlib.Data.List.Forall2

namespace LoopNest

/-- Monads in which a result of a sequence comes from a result of its first part. -/
class Returns (m : Type → Type) [Monad m] where
  returns : {α : Type} → m α → α → Prop
  of_pure : ∀ {α : Type} {a b : α}, returns (pure a) b → b = a
  of_bind : ∀ {α β : Type} {x : m α} {f : α → m β} {b : β}, returns (x >>= f) b →
    ∃ a, returns x a ∧ returns (f a) b

export Returns (returns)

instance : Returns Id where
  returns x a := a = x.run
  of_pure h := h
  of_bind h := ⟨_, rfl, h⟩

instance : Returns (Except ε) where
  returns x a := x = .ok a
  of_pure h := (Except.ok.inj h).symm
  of_bind {_ _ x _ _} h := by
    cases x with
    | error e => cases h
    | ok a => exact ⟨a, rfl, h⟩

instance : Returns Option where
  returns x a := x = some a
  of_pure h := (Option.some.inj h).symm
  of_bind {_ _ x _ _} h := by
    cases x with
    | none => cases h
    | some a => exact ⟨a, rfl, h⟩

instance [Monad m] [Returns m] : Returns (StateT σ m) where
  returns x a := ∃ s s', returns (x.run s) (a, s')
  of_pure h := by
    obtain ⟨s, s', h⟩ := h
    exact congrArg Prod.fst (Returns.of_pure h)
  of_bind h := by
    obtain ⟨s, s', h⟩ := h
    obtain ⟨⟨a, t⟩, hx, hf⟩ := Returns.of_bind h
    exact ⟨a, ⟨s, t, hx⟩, t, s', hf⟩

theorem returns_ok {x : Except ε α} {a : α} (h : x = .ok a) : returns x a := h

theorem returns_some {x : Option α} {a : α} (h : x = some a) : returns x a := h

/-- A lifted computation returns what it returns by itself. -/
theorem returns_lift {x : Except ε α} {a : α}
    (h : returns (monadLift x : StateT σ (Except ε) α) a) : x = .ok a := by
  obtain ⟨s, s', h⟩ := h
  cases x with
  | error e => cases h
  | ok b => cases h; rfl

/-- What a sequence in a state gives, and the state between its parts. -/
theorem run_bind {ε σ α β : Type} {x : StateT σ (Except ε) α} {f : α → StateT σ (Except ε) β}
    {s s' : σ} {b : β} (h : (x >>= f).run s = .ok (b, s')) :
    ∃ a t, x.run s = .ok (a, t) ∧ (f a).run t = .ok (b, s') := by
  have h : returns (x.run s >>= fun p => (f p.1).run p.2) (b, s') := h
  obtain ⟨⟨a, t⟩, hx, hf⟩ := Returns.of_bind h
  exact ⟨a, t, hx, hf⟩

theorem run_pure {s s' : σ} {a b : α} (h : (pure a : StateT σ (Except ε) α).run s = .ok (b, s')) :
    b = a ∧ s' = s := by
  cases h
  exact ⟨rfl, rfl⟩

theorem run_lift_bind {ε σ α β : Type} {x : Except ε α} {f : α → StateT σ (Except ε) β} {s s' : σ}
    {b : β} (h : ((monadLift x : StateT σ (Except ε) α) >>= f).run s = .ok (b, s')) :
    ∃ a, x = .ok a ∧ (f a).run s = .ok (b, s') := by
  cases x with
  | error e => cases h
  | ok a => exact ⟨a, rfl, h⟩

theorem mapError_ok {f : ε → ε'} {x : Except ε α} {a : α} (h : x.mapError f = .ok a) :
    x = .ok a := by
  cases x with
  | error e => cases h
  | ok b => cases h; rfl

/-- What is read off the result of a computation that gives one. -/
theorem exists_of_toOption {x : Except ε α} {f : α → β} {b : β}
    (h : x.toOption.map f = some b) : ∃ a, x = .ok a ∧ f a = b := by
  cases x with
  | error e => cases h
  | ok a => exact ⟨a, rfl, Option.some.inj h⟩

theorem orOverflow_error_iff {o : Option α} : orOverflow o = .error f ↔
    o = none ∧ f = .overflow := by
  cases o with
  | none => simp [orOverflow, eq_comm]
  | some a => simp [orOverflow]

/-- A sequence fails where its first part does, or where what follows a result of it does. -/
theorem bind_error {x : Except ε α} {f : α → Except ε β} {e : ε} (h : x >>= f = .error e) :
    x = .error e ∨ ∃ a, x = .ok a ∧ f a = .error e := by
  cases x with
  | error e' =>
    cases h
    exact .inl rfl
  | ok a => exact .inr ⟨a, rfl, h⟩

theorem bind_pure_error_iff {x : Except ε α} {f : α → β} {e : ε} :
    (x >>= fun a => pure (f a)) = .error e ↔ x = .error e := by
  cases x <;> simp [bind, Except.bind, pure, Except.pure]

theorem map_error {x : Except ε α} {f : α → β} {e : ε} (h : f <$> x = .error e) :
    x = .error e := by
  cases x with
  | error e' =>
    cases h
    rfl
  | ok a => cases h

theorem mapM_error {f : α → Except ε β} {xs : List α} {e : ε} (h : xs.mapM f = .error e) :
    ∃ x ∈ xs, f x = .error e := by
  induction xs with
  | nil => cases h
  | cons x xs ih =>
    rw [List.mapM_cons] at h
    rcases bind_error h with h | ⟨y, -, h⟩
    · exact ⟨x, List.mem_cons_self, h⟩
    · rcases bind_error h with h | ⟨ys, -, h⟩
      · obtain ⟨z, hz, hfail⟩ := ih h
        exact ⟨z, List.mem_cons_of_mem _ hz, hfail⟩
      · cases h

/-- A fold fails at one of its steps, after it got through the elements before. -/
theorem foldlM_error {f : β → α → Except ε β} {init : β} {xs : List α} {e : ε}
    (h : xs.foldlM f init = .error e) :
    ∃ done x rest acc, xs = done ++ x :: rest ∧ done.foldlM f init = .ok acc ∧
      f acc x = .error e := by
  induction xs generalizing init with
  | nil => cases h
  | cons x xs ih =>
    rw [List.foldlM_cons] at h
    rcases bind_error h with h | ⟨next, hx, h⟩
    · exact ⟨[], x, xs, init, rfl, rfl, h⟩
    · obtain ⟨done, y, rest, acc, rfl, hdone, hy⟩ := ih h
      refine ⟨x :: done, y, rest, acc, rfl, ?_, hy⟩
      rw [List.foldlM_cons, hx]
      exact hdone

theorem mapError_error {f : ε → ε'} {x : Except ε α} {e : ε'} (h : x.mapError f = .error e) :
    ∃ e', x = .error e' ∧ e = f e' := by
  cases x with
  | error e' =>
    cases h
    exact ⟨e', rfl, rfl⟩
  | ok a => cases h

def Fails {ε σ α : Type} (x : StateT σ (Except ε) α) (e : ε) : Prop := ∃ s, x.run s = .error e

section
variable {ε σ α β : Type} {x : StateT σ (Except ε) α} {e : ε}

theorem not_fails_pure {a : α} : ¬Fails (pure a : StateT σ (Except ε) α) e :=
  fun ⟨_, h⟩ => nomatch h

theorem not_fails_modify {f : σ → σ} : ¬Fails (modify f : StateT σ (Except ε) PUnit) e :=
  fun ⟨_, h⟩ => nomatch h

theorem not_fails_get : ¬Fails (get : StateT σ (Except ε) σ) e :=
  fun ⟨_, h⟩ => nomatch h

theorem fails_lift {x : Except ε α} (h : Fails (monadLift x : StateT σ (Except ε) α) e) :
    x = .error e := by
  obtain ⟨s, h⟩ := h
  cases x with
  | error e' =>
    cases h
    rfl
  | ok a => cases h

theorem fails_bind {f : α → StateT σ (Except ε) β} (h : Fails (x >>= f) e) :
    Fails x e ∨ ∃ a, returns x a ∧ Fails (f a) e := by
  obtain ⟨s, h⟩ := h
  have h : (x.run s >>= fun p => (f p.1).run p.2) = .error e := h
  rcases bind_error h with h | ⟨⟨a, t⟩, hx, h⟩
  · exact .inl ⟨s, h⟩
  · exact .inr ⟨a, ⟨s, t, hx⟩, t, h⟩

theorem fails_map {f : α → β} (h : Fails (f <$> x) e) : Fails x e := by
  rw [map_eq_pure_bind] at h
  rcases fails_bind h with h | ⟨a, -, h⟩
  · exact h
  · exact absurd h not_fails_pure

theorem fails_mapM {f : α → StateT σ (Except ε) β} {xs : List α} (h : Fails (xs.mapM f) e) :
    ∃ x ∈ xs, Fails (f x) e := by
  induction xs with
  | nil => exact absurd h not_fails_pure
  | cons x xs ih =>
    rw [List.mapM_cons] at h
    rcases fails_bind h with h | ⟨y, -, h⟩
    · exact ⟨x, List.mem_cons_self, h⟩
    · rcases fails_bind h with h | ⟨ys, -, h⟩
      · obtain ⟨z, hz, hfail⟩ := ih h
        exact ⟨z, List.mem_cons_of_mem _ hz, hfail⟩
      · exact absurd h not_fails_pure

theorem fails_foldlM {f : β → α → StateT σ (Except ε) β} {init : β} {xs : List α}
    (h : Fails (xs.foldlM f init) e) : ∃ acc, ∃ x ∈ xs, Fails (f acc x) e := by
  induction xs generalizing init with
  | nil => exact absurd h not_fails_pure
  | cons x xs ih =>
    rw [List.foldlM_cons] at h
    rcases fails_bind h with h | ⟨next, -, h⟩
    · exact ⟨init, x, List.mem_cons_self, h⟩
    · obtain ⟨acc, y, hy, hfail⟩ := ih h
      exact ⟨acc, y, List.mem_cons_of_mem _ hy, hfail⟩

end

theorem exists_of_forall₂ {R : α → β → Prop} {xs : List α} {ys : List β}
    (h : List.Forall₂ R xs ys) {x : α} (hx : x ∈ xs) : ∃ y ∈ ys, R x y := by
  induction h with
  | nil => cases hx
  | cons hr _ ih =>
    rcases List.mem_cons.mp hx with rfl | hx
    · exact ⟨_, List.mem_cons_self, hr⟩
    · obtain ⟨y, hy, hr⟩ := ih hx
      exact ⟨y, List.mem_cons_of_mem _ hy, hr⟩

theorem exists_forall₂ {R : α → β → Prop} {ys : List β} (h : ∀ y ∈ ys, ∃ x, R x y) :
    ∃ xs, List.Forall₂ R xs ys := by
  induction ys with
  | nil => exact ⟨[], .nil⟩
  | cons y ys ih =>
    obtain ⟨⟨x, hx⟩, h⟩ := List.forall_mem_cons.mp h
    obtain ⟨xs, hxs⟩ := ih h
    exact ⟨x :: xs, .cons hx hxs⟩

theorem forall₂_both {R S : α → β → Prop} {xs : List α} {ys : List β} (h : List.Forall₂ R xs ys)
    (h' : List.Forall₂ S xs ys) : List.Forall₂ (fun x y => R x y ∧ S x y) xs ys := by
  induction h with
  | nil => exact .nil
  | cons hr _ ih =>
    obtain ⟨hs, h'⟩ := List.forall₂_cons.mp h'
    exact .cons ⟨hr, hs⟩ (ih h')

theorem exists_getElem?_of_forall₂ {R : α → β → Prop} {xs : List α} {ys : List β}
    (h : List.Forall₂ R xs ys) {n : Nat} {x : α} (hx : xs[n]? = some x) :
    ∃ y, ys[n]? = some y ∧ R x y := by
  induction h generalizing n with
  | nil => cases hx
  | cons hr _ ih =>
    cases n with
    | zero =>
      cases hx
      exact ⟨_, rfl, hr⟩
    | succ n => exact ih hx

section
variable {m : Type → Type} [Monad m] [Returns m] [LawfulMonad m]

theorem returns_map {f : α → β} {x : m α} {b : β} (h : returns (f <$> x) b) :
    ∃ a, returns x a ∧ b = f a := by
  rw [← bind_pure_comp] at h
  obtain ⟨a, hx, ha⟩ := Returns.of_bind h
  exact ⟨a, hx, Returns.of_pure ha⟩

theorem returns_mapM {f : α → m β} {xs : List α} {ys : List β} (h : returns (xs.mapM f) ys) :
    List.Forall₂ (fun x y => returns (f x) y) xs ys := by
  induction xs generalizing ys with
  | nil =>
    rw [List.mapM_nil] at h
    rw [Returns.of_pure h]
    exact .nil
  | cons x xs ih =>
    rw [List.mapM_cons] at h
    obtain ⟨y, hy, h⟩ := Returns.of_bind h
    obtain ⟨ys', hys, h⟩ := Returns.of_bind h
    rw [Returns.of_pure h]
    exact .cons hy (ih hys)

omit [Returns m] in
theorem mapM_eq_pure_of_forall₂ {f : α → m β} {xs : List α} {ys : List β}
    (h : List.Forall₂ (fun x y => f x = pure y) xs ys) : xs.mapM f = pure ys := by
  induction h with
  | nil => exact List.mapM_nil
  | cons hx _ ih => rw [List.mapM_cons, hx, ih, pure_bind, pure_bind]

omit [Returns m] in
theorem mapM_eq_pure {f : α → m β} {g : α → β} {xs : List α} (h : ∀ x ∈ xs, f x = pure (g x)) :
    xs.mapM f = pure (xs.map g) :=
  mapM_eq_pure_of_forall₂ (List.forall₂_map_right_iff.mpr (List.forall₂_same.mpr h))

omit [LawfulMonad m] in
/-- What holds before a fold and is kept by each of its steps holds after it. The property may
speak of the elements processed so far. -/
theorem returns_foldlM {P : List α → β → Prop} {f : β → α → m β} {init : β} {xs : List α} {r : β}
    (h : returns (xs.foldlM f init) r) (hinit : P [] init)
    (hstep : ∀ done x acc next, x ∈ xs → P done acc → returns (f acc x) next →
      P (done ++ [x]) next) : P xs r := by
  have hrun : ∀ done acc, P done acc → returns (xs.foldlM f acc) r → P (done ++ xs) r := by
    clear h hinit
    induction xs with
    | nil =>
      intro done acc hacc h
      rw [List.foldlM_nil] at h
      rw [Returns.of_pure h, List.append_nil]
      exact hacc
    | cons x xs ih =>
      intro done acc hacc h
      rw [List.foldlM_cons] at h
      obtain ⟨next, hx, h⟩ := Returns.of_bind h
      have hnext := hstep done x acc next List.mem_cons_self hacc hx
      rw [List.append_cons]
      exact ih (fun done y acc next hy => hstep done y acc next (List.mem_cons_of_mem _ hy))
        _ next hnext h
  exact hrun [] init hinit h

end

/-- Where only one error is possible, it occurs exactly if one of the computations fails. -/
theorem mapM_error_iff {ε α β : Type} {f : α → Except ε β} {xs : List α} {e : ε}
    (honly : ∀ x ∈ xs, ∀ e', f x = .error e' → e' = e) :
    xs.mapM f = .error e ↔ ∃ x ∈ xs, f x = .error e := by
  refine ⟨mapM_error, fun ⟨x, hx, hfail⟩ => ?_⟩
  cases h : xs.mapM f with
  | error e' =>
    obtain ⟨y, hy, hfail'⟩ := mapM_error h
    rw [honly y hy e' hfail']
  | ok ys =>
    obtain ⟨z, -, hz⟩ := exists_of_forall₂ (returns_mapM (returns_ok h)) hx
    cases hfail.symm.trans hz

end LoopNest
