import Mathlib.Data.List.Forall2
import EntityFilter.Filter.Truth

namespace EntityFilter.Fallible

variable {ε α β γ : Type}

theorem bind_eq_ok {x : Except ε α} {f : α → Except ε β} {b : β} :
    x >>= f = .ok b ↔ ∃ a, x = .ok a ∧ f a = .ok b := by
  cases x <;> simp [bind, Except.bind]

theorem bind_eq_error {x : Except ε α} {f : α → Except ε β} {e : ε} :
    x >>= f = .error e ↔ x = .error e ∨ ∃ a, x = .ok a ∧ f a = .error e := by
  cases x <;> simp [bind, Except.bind]

theorem map_eq_ok {x : Except ε α} {f : α → β} {b : β} :
    x.map f = .ok b ↔ ∃ a, x = .ok a ∧ f a = b := by
  cases x <;> simp [Except.map]

theorem map_eq_error {x : Except ε α} {f : α → β} {e : ε} :
    x.map f = .error e ↔ x = .error e := by
  cases x <;> simp [Except.map]

theorem mapError_eq_ok {ε' : Type} {x : Except ε α} {f : ε → ε'} {a : α} :
    x.mapError f = .ok a ↔ x = .ok a := by
  cases x <;> simp [Except.mapError]

/-- What a failing walk fails for is what it fails for at one of the items. -/
theorem mapM_error_mem {f : α → Except ε β} {xs : List α} {e : ε} (h : xs.mapM f = .error e) :
    ∃ x ∈ xs, f x = .error e := by
  induction xs with
  | nil => simp [pure, Except.pure] at h
  | cons x xs ih =>
    rw [List.mapM_cons] at h
    rcases bind_eq_error.mp h with hx | ⟨y, _, hxs⟩
    · exact ⟨x, List.mem_cons_self, hx⟩
    · rcases bind_eq_error.mp hxs with hxs | ⟨ys, _, hp⟩
      · obtain ⟨z, hz, he⟩ := ih hxs
        exact ⟨z, List.mem_cons_of_mem x hz, he⟩
      · cases hp

theorem mapM_ok_mem {f : α → Except ε β} {xs : List α} {ys : List β} (h : xs.mapM f = .ok ys) :
    ∀ y ∈ ys, ∃ x ∈ xs, f x = .ok y := by
  induction xs generalizing ys with
  | nil =>
    simp only [List.mapM_nil, pure, Except.pure, Except.ok.injEq] at h
    subst h
    simp
  | cons x xs ih =>
    rw [List.mapM_cons] at h
    obtain ⟨y, hy, h⟩ := bind_eq_ok.mp h
    obtain ⟨zs, hzs, h⟩ := bind_eq_ok.mp h
    cases h
    intro z hz
    rcases List.mem_cons.mp hz with rfl | hz
    · exact ⟨x, List.mem_cons_self, hy⟩
    · obtain ⟨w, hw, he⟩ := ih hzs z hz
      exact ⟨w, List.mem_cons_of_mem x hw, he⟩

theorem mapM_ok_all {f : α → Except ε β} {xs : List α} {ys : List β} (h : xs.mapM f = .ok ys) :
    ∀ x ∈ xs, ∃ y, f x = .ok y := by
  induction xs generalizing ys with
  | nil => simp
  | cons x xs ih =>
    rw [List.mapM_cons] at h
    obtain ⟨y, hy, h⟩ := bind_eq_ok.mp h
    obtain ⟨zs, hzs, _⟩ := bind_eq_ok.mp h
    intro z hz
    rcases List.mem_cons.mp hz with rfl | hz
    · exact ⟨y, hy⟩
    · exact ih hzs z hz

/-- A walk whose steps all succeed, with results that have a property, succeeds with such results.
-/
theorem mapM_total {f : α → Except ε β} {good : β → Prop} {xs : List α}
    (h : ∀ x ∈ xs, ∃ y, f x = .ok y ∧ good y) : ∃ ys, xs.mapM f = .ok ys ∧ ∀ y ∈ ys, good y := by
  cases hm : xs.mapM f with
  | ok ys =>
    refine ⟨ys, rfl, fun y hy => ?_⟩
    obtain ⟨x, hx, he⟩ := mapM_ok_mem hm y hy
    obtain ⟨z, hz, hg⟩ := h x hx
    rw [hz] at he
    cases he
    exact hg
  | error e =>
    obtain ⟨x, hx, he⟩ := mapM_error_mem hm
    obtain ⟨y, hy, _⟩ := h x hx
    rw [hy] at he
    cases he

/-- The results of a walk stand in the places of their items. -/
theorem mapM_ok_forall₂ {f : α → Except ε β} {xs : List α} {ys : List β}
    (h : xs.mapM f = .ok ys) : List.Forall₂ (fun x y => f x = .ok y) xs ys := by
  induction xs generalizing ys with
  | nil =>
    cases h
    exact .nil
  | cons x xs ih =>
    rw [List.mapM_cons] at h
    obtain ⟨y, hy, h⟩ := bind_eq_ok.mp h
    obtain ⟨zs, hzs, h⟩ := bind_eq_ok.mp h
    cases h
    exact .cons hy (ih hzs)

theorem mapM_of_forall₂ {f : α → Except ε β} {xs : List α} {ys : List β}
    (h : List.Forall₂ (fun x y => f x = .ok y) xs ys) : xs.mapM f = .ok ys := by
  induction h with
  | nil => rfl
  | cons first _ ih =>
    rw [List.mapM_cons, first, ih]
    rfl

/-- Walks over related items, step by step related, have related results. -/
theorem mapM_related {α' β' : Type} {R : α → α' → Prop} {S : β → β' → Prop} {f : α → Except ε β}
    {g : α' → Except ε β'} (step : ∀ x x' y y', R x x' → f x = .ok y → g x' = .ok y' → S y y')
    {xs : List α} {xs' : List α'} (h : List.Forall₂ R xs xs') {ys : List β} {ys' : List β'}
    (hx : xs.mapM f = .ok ys) (hy : xs'.mapM g = .ok ys') : List.Forall₂ S ys ys' := by
  induction h generalizing ys ys' with
  | nil =>
    cases hx
    cases hy
    exact .nil
  | cons first _ ih =>
    rw [List.mapM_cons] at hx hy
    obtain ⟨y, hfx, hx⟩ := bind_eq_ok.mp hx
    obtain ⟨zs, hzs, hx⟩ := bind_eq_ok.mp hx
    obtain ⟨y', hgx, hy⟩ := bind_eq_ok.mp hy
    obtain ⟨zs', hzs', hy⟩ := bind_eq_ok.mp hy
    cases hx
    cases hy
    exact .cons (step _ _ _ _ first hfx hgx) (ih hzs hzs')

/-- A walk that succeeds gives what its items give and nothing else. -/
theorem mapM_mem_iff {f : α → Except ε β} {xs : List α} {ys : List β} (h : xs.mapM f = .ok ys)
    {y : β} : y ∈ ys ↔ ∃ x ∈ xs, f x = .ok y := by
  constructor
  · exact mapM_ok_mem h y
  · rintro ⟨x, hx, found⟩
    have each := mapM_ok_forall₂ h
    clear h
    induction each with
    | nil => cases hx
    | cons first _ ih =>
      rcases List.mem_cons.mp hx with rfl | hx
      · rw [found] at first
        cases first
        exact List.mem_cons_self
      · exact List.mem_cons_of_mem _ (ih hx)

theorem mapM_singleton_eq_ok {f : α → Except ε β} {x : α} {ys : List β} :
    [x].mapM f = .ok ys ↔ ∃ y, f x = .ok y ∧ ys = [y] := by
  cases h : f x <;> simp [h, pure, Except.pure, bind, Except.bind, eq_comm]

theorem mapM_ok_iff {f : α → Except ε β} {xs : List α} :
    (∃ ys, xs.mapM f = .ok ys) ↔ ∀ x ∈ xs, ∃ y, f x = .ok y := by
  constructor
  · rintro ⟨ys, h⟩
    exact mapM_ok_all h
  · intro h
    have each : ∀ x ∈ xs, ∃ y, f x = .ok y ∧ True := by simpa using h
    obtain ⟨ys, hys, _⟩ := mapM_total each
    exact ⟨ys, hys⟩

/-- A walk fails as the first item does at which it cannot go on. -/
theorem mapM_eq_error {f : α → Except ε β} {xs : List α} {e : ε} :
    xs.mapM f = .error e ↔ ∃ before x after, xs = before ++ x :: after ∧
      (∀ b ∈ before, ∃ y, f b = .ok y) ∧ f x = .error e := by
  constructor
  · intro h
    induction xs with
    | nil => cases h
    | cons x xs ih =>
      rw [List.mapM_cons] at h
      rcases bind_eq_error.mp h with failed | ⟨y, hy, h⟩
      · exact ⟨[], x, xs, rfl, by simp, failed⟩
      · rcases bind_eq_error.mp h with h | ⟨ys, _, done⟩
        · obtain ⟨before, z, after, rfl, fine, failed⟩ := ih h
          refine ⟨x :: before, z, after, rfl, ?_, failed⟩
          intro b hb
          rcases List.mem_cons.mp hb with rfl | hb
          · exact ⟨y, hy⟩
          · exact fine b hb
        · cases done
  · rintro ⟨before, x, after, rfl, fine, failed⟩
    obtain ⟨ys, hys⟩ := mapM_ok_iff.mpr fine
    rw [List.mapM_append, hys, List.mapM_cons, failed]
    rfl

theorem anyFrom_error_mem {test : α → Except ε Truth} {t : Truth} {xs : List α} {e : ε}
    (h : Truth.anyFrom test t xs = .error e) : ∃ x ∈ xs, test x = .error e := by
  induction xs generalizing t with
  | nil => simp [Truth.anyFrom] at h
  | cons x xs ih =>
    rw [Truth.anyFrom] at h
    rcases bind_eq_error.mp h with hx | ⟨u, _, h⟩
    · exact ⟨x, List.mem_cons_self, hx⟩
    · dsimp only at h
      split at h
      · cases h
      · obtain ⟨z, hz, he⟩ := ih h
        exact ⟨z, List.mem_cons_of_mem x hz, he⟩

theorem any_error_mem {test : α → Except ε Truth} {xs : List α} {e : ε}
    (h : Truth.any test xs = .error e) : ∃ x ∈ xs, test x = .error e :=
  anyFrom_error_mem h

theorem mapError_bind (m : ε → ε) (x : Except ε α) (f : α → Except ε β) :
    (x >>= f).mapError m = x.mapError m >>= fun a => (f a).mapError m := by
  cases x <;> rfl

theorem mapError_map (m : ε → ε) (x : Except ε α) (f : α → β) :
    (x.map f).mapError m = (x.mapError m).map f := by
  cases x <;> rfl

theorem map_bind (x : Except ε α) (g : α → β) (f : β → Except ε γ) :
    x.map g >>= f = x >>= fun a => f (g a) := by
  cases x <;> rfl

/-- A change of the errors goes through to the steps. -/
theorem mapError_mapM (m : ε → ε) (f : α → Except ε β) (xs : List α) :
    (xs.mapM f).mapError m = xs.mapM fun x => (f x).mapError m := by
  induction xs with
  | nil => rfl
  | cons x xs ih =>
    simp only [List.mapM_cons, mapError_bind, ih]
    rfl

/-- A change of the results comes out of a walk. -/
theorem mapM_map_result (g : β → γ) (f : α → Except ε β) (xs : List α) :
    (xs.mapM fun x => (f x).map g) = (xs.mapM f).map (List.map g) := by
  induction xs with
  | nil => rfl
  | cons x xs ih =>
    simp only [List.mapM_cons, ih]
    cases f x with
    | error e => rfl
    | ok y => cases xs.mapM f <;> rfl

/-- Where the one succeeds, the other does with the same result. -/
def Carries (x y : Except ε α) : Prop := ∀ a, x = .ok a → y = .ok a

namespace Carries

theorem refl (x : Except ε α) : Carries x x := fun _ h => h

theorem bind {x y : Except ε α} {f g : α → Except ε β} (h : Carries x y)
    (steps : ∀ a, Carries (f a) (g a)) : Carries (x >>= f) (y >>= g) := by
  intro b hb
  obtain ⟨a, ha, hb⟩ := bind_eq_ok.mp hb
  exact bind_eq_ok.mpr ⟨a, h a ha, steps a b hb⟩

theorem map {x y : Except ε α} (h : Carries x y) (f : α → β) : Carries (x.map f) (y.map f) := by
  intro b hb
  cases hx : x with
  | error e =>
    rw [hx] at hb
    cases hb
  | ok a =>
    rw [hx] at hb
    rw [h a hx]
    exact hb

theorem mapM {f g : α → Except ε β} (h : ∀ a, Carries (f a) (g a)) (xs : List α) :
    Carries (xs.mapM f) (xs.mapM g) := by
  induction xs with
  | nil => exact refl _
  | cons x xs ih =>
    rw [List.mapM_cons, List.mapM_cons]
    apply (h x).bind
    intro y
    exact ih.bind fun ys => refl _

theorem any {f g : α → Except ε Truth} (h : ∀ a, Carries (f a) (g a)) (xs : List α) :
    Carries (Truth.any f xs) (Truth.any g xs) := by
  unfold Truth.any
  generalize Truth.false = t
  induction xs generalizing t with
  | nil => exact refl _
  | cons x xs ih =>
    rw [Truth.anyFrom, Truth.anyFrom]
    apply (h x).bind
    intro u
    dsimp only
    split
    · exact refl _
    · exact ih _

end Carries

/-- What was found before stays found. -/
theorem anyFrom_or {test : α → Except ε Truth} {xs : List α} {r t : Truth} (s : Truth)
    (h : Truth.anyFrom test r xs = .ok t) : Truth.anyFrom test (s.or r) xs = .ok (s.or t) := by
  induction xs generalizing r with
  | nil =>
    cases h
    rfl
  | cons x xs ih =>
    obtain ⟨u, hu, h⟩ := bind_eq_ok.mp h
    refine bind_eq_ok.mpr ⟨u, hu, ?_⟩
    dsimp only at h ⊢
    rw [Truth.or_assoc]
    by_cases found : r.or u = .true
    · rw [if_pos found] at h
      cases h
      rw [found, Truth.or_comm s]
      rfl
    · rw [if_neg found] at h
      -- If something true was found before, the tests behind it are not made.
      by_cases before : s = .true
      · subst before
        rfl
      · have undecided : s.or (r.or u) ≠ .true := by
          revert before found
          cases s <;> cases r.or u <;> simp [Truth.or]
        rw [if_neg undecided]
        exact ih h

theorem any_singleton {test : α → Except ε Truth} {x : α} : Truth.any test [x] = test x := by
  simp only [Truth.any, Truth.anyFrom]
  cases test x with
  | error e => rfl
  | ok t => cases t <;> rfl

/-- A test over two lists that fails in neither finds the greater of what it finds in each. -/
theorem any_append {test : α → Except ε Truth} {xs ys : List α} {t u : Truth}
    (hx : Truth.any test xs = .ok t) (hy : Truth.any test ys = .ok u) :
    Truth.any test (xs ++ ys) = .ok (t.or u) := by
  unfold Truth.any at hx ⊢
  generalize Truth.false = s at hx ⊢
  induction xs generalizing s with
  | nil =>
    cases hx
    have more := anyFrom_or t hy
    have same : t.or .false = t := by cases t <;> rfl
    rwa [same] at more
  | cons x xs ih =>
    obtain ⟨v, hv, hx⟩ := bind_eq_ok.mp hx
    refine bind_eq_ok.mpr ⟨v, hv, ?_⟩
    dsimp only at hx ⊢
    split
    · rename_i found
      rw [if_pos found] at hx
      cases hx
      rfl
    · rename_i found
      rw [if_neg found] at hx
      exact ih _ hx

end EntityFilter.Fallible
