import Mathlib.Data.List.Forall2
import PackedDrawing.Act

/-!
# Successful outcomes

When a computation or a step is put together from others, it succeeds exactly when they all do. The
statements here take such a success apart, one function at a time, so that no proof opens a monad.
-/

namespace PackedDrawing

variable {σ τ β γ : Type}

/-- One computation after another succeeds exactly when both do. -/
theorem bind_eq_ok {x : Except Fault β} {f : β → Except Fault γ} {c : γ} :
    (x >>= f) = .ok c ↔ ∃ b, x = .ok b ∧ f b = .ok c := by
  cases x with
  | error e => simp [bind, Except.bind]
  | ok b => simp [bind, Except.bind]

/-- One computation after another fails as the first that fails does. -/
theorem bind_eq_error {x : Except Fault β} {f : β → Except Fault γ} {e : Fault} :
    (x >>= f) = .error e ↔ x = .error e ∨ ∃ b, x = .ok b ∧ f b = .error e := by
  cases x with
  | error e => simp [bind, Except.bind]
  | ok b => simp [bind, Except.bind]

@[simp] theorem ok_bind (b : β) (f : β → Except Fault γ) : (Except.ok b >>= f) = f b := rfl

@[simp] theorem pure_eq_ok {b c : β} : (pure b : Except Fault β) = .ok c ↔ b = c := by
  simp [pure, Except.pure]

/-- Working through a list succeeds exactly when each of its items does. -/
theorem mapM_eq_ok_iff {f : β → Except Fault γ} {xs : List β} {ys : List γ} :
    xs.mapM f = .ok ys ↔ List.Forall₂ (fun x y => f x = .ok y) xs ys := by
  induction xs generalizing ys with
  | nil => simp [pure, Except.pure, eq_comm]
  | cons x rest ih =>
      rw [List.mapM_cons, bind_eq_ok]
      constructor
      · rintro ⟨y, hy, h⟩
        obtain ⟨tail, htail, h⟩ := bind_eq_ok.mp h
        rw [← pure_eq_ok.mp h]
        exact List.Forall₂.cons hy (ih.mp htail)
      · intro h
        cases h with
        | cons hy htail => exact ⟨_, hy, bind_eq_ok.mpr ⟨_, ih.mpr htail, rfl⟩⟩

/-- The answers are those of the items. -/
theorem mem_iff_of_mapM {f : β → Except Fault γ} {xs : List β} {ys : List γ}
    (h : xs.mapM f = .ok ys) {y : γ} : y ∈ ys ↔ ∃ x ∈ xs, f x = .ok y := by
  induction mapM_eq_ok_iff.mp h with
  | nil => simp
  | @cons x z xs ys hxz hrest ih =>
      have hys := ih (mapM_eq_ok_iff.mpr hrest)
      simp [hys, hxz, eq_comm]

theorem exists_of_mapM {f : β → Except Fault γ} {xs : List β} {ys : List γ}
    (h : xs.mapM f = .ok ys) {x : β} (hx : x ∈ xs) : ∃ y ∈ ys, f x = .ok y := by
  induction mapM_eq_ok_iff.mp h with
  | nil => cases hx
  | @cons z y xs ys hzy hrest ih =>
      rcases List.mem_cons.mp hx with rfl | hx
      · exact ⟨y, List.mem_cons_self, hzy⟩
      · obtain ⟨y', hy', heq⟩ := ih (mapM_eq_ok_iff.mpr hrest) hx
        exact ⟨y', List.mem_cons_of_mem y hy', heq⟩

/-- An answer stands where the item stands. -/
theorem getElem?_eq_some_of_mapM {f : β → Except Fault γ} {xs : List β} {ys : List γ}
    (h : xs.mapM f = .ok ys) {i : Nat} {y : γ} :
    ys[i]? = some y ↔ ∃ x, xs[i]? = some x ∧ f x = .ok y := by
  have hpairs := mapM_eq_ok_iff.mp h
  constructor
  · intro hy
    obtain ⟨hi, rfl⟩ := List.getElem?_eq_some_iff.mp hy
    have hlength : i < xs.length := hpairs.length_eq ▸ hi
    exact ⟨xs[i], List.getElem?_eq_getElem hlength, hpairs.get hlength hi⟩
  · rintro ⟨x, hx, hxy⟩
    obtain ⟨hi, rfl⟩ := List.getElem?_eq_some_iff.mp hx
    have hlength : i < ys.length := hpairs.length_eq ▸ hi
    rw [List.getElem?_eq_getElem hlength, Option.some.injEq]
    exact Except.ok.inj ((hpairs.get hi hlength).symm.trans hxy)

theorem exists_mapM_eq_ok {f : β → Except Fault γ} {xs : List β}
    (h : ∀ x ∈ xs, ∃ y, f x = .ok y) : ∃ ys, xs.mapM f = .ok ys := by
  induction xs with
  | nil => exact ⟨[], rfl⟩
  | cons x rest ih =>
      obtain ⟨y, hy⟩ := h x List.mem_cons_self
      obtain ⟨ys, hys⟩ := ih fun z hz => h z (List.mem_cons_of_mem x hz)
      exact ⟨y :: ys, mapM_eq_ok_iff.mpr (List.Forall₂.cons hy (mapM_eq_ok_iff.mp hys))⟩

/-- Computations that cannot fail are a plain map. -/
theorem mapM_eq_map {f : β → Except Fault γ} {g : β → γ} {xs : List β}
    (h : ∀ x ∈ xs, f x = .ok (g x)) : xs.mapM f = .ok (xs.map g) := by
  rw [mapM_eq_ok_iff, List.forall₂_map_right_iff, List.forall₂_same]
  exact h

/-- What happens to each answer happens to all of them. -/
theorem mapM_map {δ : Type} (f : β → Except Fault γ) (g : γ → δ) (xs : List β) :
    xs.mapM (fun x => (f x).map g) = (xs.mapM f).map (List.map g) := by
  induction xs with
  | nil => rfl
  | cons x rest ih =>
      rw [List.mapM_cons, List.mapM_cons, ih]
      cases f x with
      | error e => rfl
      | ok y =>
          cases rest.mapM f with
          | error e => rfl
          | ok ys => rfl

theorem mapM_congr {f g : β → Except Fault γ} {xs : List β} (h : ∀ x ∈ xs, f x = g x) :
    xs.mapM f = xs.mapM g := by
  induction xs with
  | nil => rfl
  | cons x rest ih =>
      rw [List.mapM_cons, List.mapM_cons, h x List.mem_cons_self,
        ih fun y hy => h y (List.mem_cons_of_mem x hy)]

namespace Act

/-- One step after another succeeds exactly when both do. -/
theorem bind_eq_ok {a : Act σ β} {f : β → Act σ γ} {s t : σ} {c : γ} :
    (a >>= f) s = (.ok c, t) ↔ ∃ b u, a s = (.ok b, u) ∧ f b u = (.ok c, t) := by
  rw [bind_apply]
  constructor
  · intro h
    rcases ha : a s with ⟨e | b, u⟩
    · simp [ha] at h
    · exact ⟨b, u, rfl, by simpa [ha] using h⟩
  · rintro ⟨b, u, ha, hf⟩
    simpa [ha] using hf

/-- One step after another fails when the first one does, or when it succeeds and the second one
fails. -/
theorem bind_eq_error {a : Act σ β} {f : β → Act σ γ} {s t : σ} {e : Fault} :
    (a >>= f) s = (.error e, t) ↔
      a s = (.error e, t) ∨ ∃ b u, a s = (.ok b, u) ∧ f b u = (.error e, t) := by
  rw [bind_apply]
  rcases ha : a s with ⟨e' | b, u⟩
  · simp
  · simp

theorem pure_eq_ok {s t : σ} {b c : β} :
    (pure b : Act σ β) s = (.ok c, t) ↔ b = c ∧ s = t := by
  simp

@[simp] theorem attempt_eq_ok {r : Except Fault β} {s t : σ} {b : β} :
    attempt r s = (.ok b, t) ↔ r = .ok b ∧ s = t := by
  simp

/-- What holds of the state stays true in two steps, however they end, if it does in each. -/
theorem bind_preserves {P : σ → Prop} {a : Act σ β} {f : β → Act σ γ}
    (ha : ∀ s, P s → P (a s).2) (hf : ∀ b s, P s → P (f b s).2) {s : σ} (hs : P s) :
    P ((a >>= f) s).2 := by
  have hfirst := ha s hs
  rw [bind_apply]
  rcases h : a s with ⟨e | b, t⟩
  · rw [h] at hfirst
    exact hfirst
  · rw [h] at hfirst
    exact hf b t hfirst

/-- What two steps leave as it is, however they end, both together do. -/
theorem bind_keeps {δ : Type} {observe : σ → δ} {a : Act σ β} {f : β → Act σ γ}
    (ha : ∀ s, observe (a s).2 = observe s) (hf : ∀ b s, observe (f b s).2 = observe s) (s : σ) :
    observe ((a >>= f) s).2 = observe s :=
  bind_preserves (P := fun t => observe t = observe s) (fun t ht => (ha t).trans ht)
    (fun b t ht => (hf b t).trans ht) rfl

/-- A step on a part succeeds as it does on the part alone, and changes nothing else. -/
theorem within_eq_ok {get : σ → τ} {put : τ → σ → σ} {a : Act τ β} {s t : σ} {b : β} :
    within get put a s = (.ok b, t) ↔ ∃ u, a (get s) = (.ok b, u) ∧ t = put u s := by
  rcases h : a (get s) with ⟨r, u⟩
  simp [within, h, eq_comm]

/-- A step on a part fails as it does on the part alone, and changes nothing else. -/
theorem within_eq_error {get : σ → τ} {put : τ → σ → σ} {a : Act τ β} {s t : σ} {e : Fault} :
    within get put a s = (.error e, t) ↔ ∃ u, a (get s) = (.error e, u) ∧ t = put u s := by
  rcases h : a (get s) with ⟨r, u⟩
  simp [within, h, eq_comm]

section Each

variable {f : γ → Act σ Unit} {xs : List γ}

theorem each_append (f : γ → Act σ Unit) (xs ys : List γ) :
    each f (xs ++ ys) = (each f xs >>= fun _ => each f ys) := by
  induction xs with
  | nil => rfl
  | cons x rest ih => rw [List.cons_append, each_cons, each_cons, ih, bind_assoc]

/-- Steps fail at an item whose step fails once all items before it have had theirs. -/
theorem each_eq_error {s t : σ} {e : Fault} (h : each f xs s = (.error e, t)) :
    ∃ before x after u, xs = before ++ x :: after ∧ each f before s = (.ok (), u) ∧
      f x u = (.error e, t) := by
  induction xs generalizing s with
  | nil => cases (Prod.mk.inj h).1
  | cons x rest ih =>
      rcases bind_eq_error.mp h with hx | ⟨_, u, hx, hrest⟩
      · exact ⟨[], x, rest, s, rfl, rfl, hx⟩
      · obtain ⟨before, y, after, v, rfl, hbefore, hy⟩ := ih hrest
        exact ⟨x :: before, y, after, v, rfl, bind_eq_ok.mpr ⟨(), u, hx, hbefore⟩, hy⟩

/-- What each step leaves as it is, all of them do. -/
theorem each_keeps {δ : Type} {observe : σ → δ}
    (hstep : ∀ x ∈ xs, ∀ s t, f x s = (.ok (), t) → observe t = observe s) {s t : σ}
    (h : each f xs s = (.ok (), t)) : observe t = observe s := by
  induction xs generalizing s with
  | nil => rw [(pure_eq_ok.mp h).2]
  | cons x rest ih =>
      obtain ⟨_, u, hx, hrest⟩ := bind_eq_ok.mp h
      have htail := ih (fun y hy => hstep y (List.mem_cons_of_mem x hy)) hrest
      exact htail.trans (hstep x List.mem_cons_self s u hx)

/-- Steps that succeed under an invariant, and keep it, all succeed. -/
theorem exists_each {P : σ → Prop}
    (hstep : ∀ x ∈ xs, ∀ s, P s → ∃ t, f x s = (.ok (), t) ∧ P t) {s : σ} (hs : P s) :
    ∃ t, each f xs s = (.ok (), t) ∧ P t := by
  induction xs generalizing s with
  | nil => exact ⟨s, rfl, hs⟩
  | cons x rest ih =>
      obtain ⟨u, hx, hu⟩ := hstep x List.mem_cons_self s hs
      obtain ⟨t, hrest, ht⟩ := ih (fun y hy => hstep y (List.mem_cons_of_mem x hy)) hu
      exact ⟨t, bind_eq_ok.mpr ⟨(), u, hx, hrest⟩, ht⟩

end Each

/-- Two runs end alike: both fail in the same way, or both answer the same and leave related
states. -/
inductive Alike (R : σ → σ → Prop) : Except Fault β × σ → Except Fault β × σ → Prop
  | failed (e : Fault) (t t' : σ) : Alike R (.error e, t) (.error e, t')
  | answered (b : β) {t t' : σ} (h : R t t') : Alike R (.ok b, t) (.ok b, t')

namespace Alike

variable {R Q : σ → σ → Prop} {x x' : Except Fault β × σ}

theorem refl (h : ∀ t, R t t) (x : Except Fault β × σ) : Alike R x x := by
  obtain ⟨e | b, t⟩ := x
  · exact failed e t t
  · exact answered b (h t)

theorem fst_eq (h : Alike R x x') : x'.1 = x.1 := by
  cases h <;> rfl

/-- Where the first run answers, the second one does. -/
theorem of_ok {b : β} {t : σ} (h : Alike R (.ok b, t) x') : ∃ t', x' = (.ok b, t') ∧ R t t' := by
  cases h with
  | answered _ h => exact ⟨_, rfl, h⟩

/-- Steps that go on alike from related states end alike. -/
theorem bind {a : Act σ β} {f : β → Act σ γ} {s s' : σ} (h : Alike R (a s) (a s'))
    (hf : ∀ b t t', R t t' → Alike Q (f b t) (f b t')) : Alike Q ((a >>= f) s) ((a >>= f) s') := by
  rw [bind_apply, bind_apply]
  generalize a s = y at h
  generalize a s' = y' at h
  cases h with
  | failed e t t' => exact failed e t t'
  | answered b h => exact hf b _ _ h

end Alike

end Act

/-- Where two lists have the same images, each item of one has a partner in the other. -/
theorem exists_of_map_eq {δ : Type} {f : β → δ} {g : γ → δ} {xs : List β} {ys : List γ}
    (h : xs.map f = ys.map g) {x : β} (hx : x ∈ xs) : ∃ y ∈ ys, f x = g y := by
  have hmem := List.mem_map_of_mem (f := f) hx
  rw [h, List.mem_map] at hmem
  obtain ⟨y, hy, heq⟩ := hmem
  exact ⟨y, hy, heq.symm⟩

/-- An item of a changed list is an item of the list, or comes from one by the change. -/
theorem mem_modify {f : β → β} {k : Nat} {xs : List β} {y : β} (h : y ∈ xs.modify k f) :
    y ∈ xs ∨ ∃ x ∈ xs, y = f x := by
  obtain ⟨i, hi⟩ := List.mem_iff_getElem?.mp h
  rw [List.getElem?_modify, Option.map_eq_map, Option.map_eq_some_iff] at hi
  obtain ⟨x, hx, heq⟩ := hi
  have hmem := List.mem_of_getElem? hx
  by_cases hki : k = i
  · rw [if_pos hki] at heq
    exact Or.inr ⟨x, hmem, heq.symm⟩
  · rw [if_neg hki] at heq
    exact Or.inl (heq ▸ hmem)

/-- A change that an observation does not see leaves it as it is on the whole list. -/
theorem map_modify_eq {f : β → β} {observe : β → γ} (h : ∀ x, observe (f x) = observe x) (k : Nat)
    (xs : List β) : (xs.modify k f).map observe = xs.map observe := by
  apply List.ext_getElem?
  intro i
  rw [List.getElem?_map, List.getElem?_map, List.getElem?_modify, Option.map_eq_map,
    Option.map_map]
  apply Option.map_congr
  intro x _
  rw [Function.comp_apply]
  by_cases hki : k = i
  · rw [if_pos hki, h x]
  · rw [if_neg hki]

end PackedDrawing
