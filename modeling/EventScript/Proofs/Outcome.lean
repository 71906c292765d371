import Mathlib.Data.List.Forall2

namespace EventScript

section Success

variable {ε ε' α β : Type}

theorem bind_eq_ok {x : Except ε α} {f : α → Except ε β} {b : β} :
    (x >>= f) = .ok b ↔ ∃ a, x = .ok a ∧ f a = .ok b := by
  cases x <;> simp [Bind.bind, Except.bind]

theorem pure_eq_ok {a b : α} : (pure a : Except ε α) = .ok b ↔ a = b := by
  simp [Pure.pure, Except.pure]

theorem map_eq_ok {x : Except ε α} {f : α → β} {b : β} :
    x.map f = .ok b ↔ ∃ a, x = .ok a ∧ f a = b := by
  cases x <;> simp [Except.map]

theorem bind_pure_eq_map (x : Except ε α) (f : α → β) :
    (x >>= fun a => pure (f a)) = x.map f := by
  cases x <;> rfl

theorem mapError_eq_ok {x : Except ε α} {f : ε → ε'} {a : α} :
    x.mapError f = .ok a ↔ x = .ok a := by
  cases x <;> simp [Except.mapError]

theorem toOption_eq_some {x : Except ε α} {a : α} : x.toOption = some a ↔ x = .ok a := by
  cases x <;> simp [Except.toOption]

theorem ite_eq_ok {p : Prop} [Decidable p] {x y : Except ε α} {a : α} :
    (if p then x else y) = .ok a ↔ p ∧ x = .ok a ∨ ¬ p ∧ y = .ok a := by
  by_cases h : p <;> simp [h]

theorem mapM_eq_ok {f : α → Except ε β} {xs : List α} {ys : List β} :
    xs.mapM f = .ok ys ↔ List.Forall₂ (fun x y => f x = .ok y) xs ys := by
  induction xs generalizing ys with
  | nil =>
    simp only [List.mapM_nil, pure_eq_ok, List.forall₂_nil_left_iff]
    exact eq_comm
  | cons x xs ih =>
    simp only [List.mapM_cons, bind_eq_ok, pure_eq_ok, ih, List.forall₂_cons_left_iff]
    constructor
    · rintro ⟨y, hy, ys, hys, rfl⟩
      exact ⟨y, ys, hy, hys, rfl⟩
    · rintro ⟨y, ys, hy, hys, rfl⟩
      exact ⟨y, hy, ys, hys, rfl⟩

theorem mapM_congr {f g : α → Except ε β} {xs : List α} (same : ∀ x ∈ xs, f x = g x) :
    xs.mapM f = xs.mapM g := by
  induction xs with
  | nil => rfl
  | cons x xs ih =>
    rw [List.mapM_cons, List.mapM_cons, same x List.mem_cons_self,
      ih fun x member => same x (List.mem_cons_of_mem _ member)]

theorem exists_mapM {f : α → Except ε β} {xs : List α} (each : ∀ x ∈ xs, ∃ y, f x = .ok y) :
    ∃ ys, xs.mapM f = .ok ys := by
  induction xs with
  | nil => exact ⟨[], rfl⟩
  | cons x xs ih =>
    obtain ⟨y, here⟩ := each x List.mem_cons_self
    obtain ⟨ys, rest⟩ := ih fun x member => each x (List.mem_cons_of_mem _ member)
    exact ⟨y :: ys, mapM_eq_ok.2 (.cons here (mapM_eq_ok.1 rest))⟩

theorem exists_left_of_mem {rel : α → β → Prop} {xs : List α} {ys : List β}
    (h : List.Forall₂ rel xs ys) {y : β} (member : y ∈ ys) : ∃ x ∈ xs, rel x y := by
  induction h with
  | nil => simp at member
  | @cons x y' xs ys head _ ih =>
    rcases List.mem_cons.1 member with rfl | inTail
    · exact ⟨x, List.mem_cons_self, head⟩
    · obtain ⟨x', inTail, related⟩ := ih inTail
      exact ⟨x', List.mem_cons_of_mem _ inTail, related⟩

theorem exists_right_of_mem {rel : α → β → Prop} {xs : List α} {ys : List β}
    (h : List.Forall₂ rel xs ys) {x : α} (member : x ∈ xs) : ∃ y ∈ ys, rel x y :=
  exists_left_of_mem (List.Forall₂.flip (R := fun y x => rel x y) h) member

theorem exists_zipWith_of_mem {γ : Type} {rel : α → β → Prop} {xs : List α} {ys : List β}
    (h : List.Forall₂ rel xs ys) (f : α → β → γ) {y : β} (member : y ∈ ys) :
    ∃ x ∈ xs, rel x y ∧ f x y ∈ List.zipWith f xs ys := by
  induction h with
  | nil => simp at member
  | @cons x y' xs ys head _ ih =>
    rcases List.mem_cons.1 member with rfl | inTail
    · exact ⟨x, List.mem_cons_self, head, List.mem_cons_self⟩
    · obtain ⟨x', inXs, related, inZip⟩ := ih inTail
      exact ⟨x', List.mem_cons_of_mem _ inXs, related, List.mem_cons_of_mem _ inZip⟩

theorem forall₂_congr_left {r s : α → β → Prop} {xs : List α} {ys : List β}
    (same : ∀ x ∈ xs, ∀ y, r x y ↔ s x y) : List.Forall₂ r xs ys ↔ List.Forall₂ s xs ys := by
  induction xs generalizing ys with
  | nil => simp
  | cons x xs ih =>
    cases ys with
    | nil => simp
    | cons y ys =>
      rw [List.forall₂_cons, List.forall₂_cons, same x List.mem_cons_self,
        ih fun x member => same x (List.mem_cons_of_mem _ member)]

theorem forall₂_and_right {rel : α → β → Prop} {P : β → Prop} {xs : List α} {ys : List β} :
    List.Forall₂ (fun x y => rel x y ∧ P y) xs ys ↔ List.Forall₂ rel xs ys ∧ ∀ y ∈ ys, P y := by
  induction xs generalizing ys with
  | nil => simp +contextual [List.forall₂_nil_left_iff]
  | cons x xs ih =>
    cases ys with
    | nil => simp
    | cons y ys =>
      simp only [List.forall₂_cons, ih, List.forall_mem_cons]
      exact and_and_and_comm

theorem forall₂_comp {γ : Type} {r : α → β → Prop} {s : β → γ → Prop} {t : α → γ → Prop}
    {xs : List α} {ys : List β} {zs : List γ} (first : List.Forall₂ r xs ys)
    (second : List.Forall₂ s ys zs) (next : ∀ x, ∀ y ∈ ys, ∀ z, r x y → s y z → t x z) :
    List.Forall₂ t xs zs := by
  induction first generalizing zs with
  | nil => cases second; exact .nil
  | cons head _ ih =>
    cases second with
    | cons head' tail' =>
      exact .cons (next _ _ List.mem_cons_self _ head head')
        (ih tail' fun x y member => next x y (List.mem_cons_of_mem _ member))

theorem forall₂_of_zip {α β γ : Type} {r : α → β → Prop} {s : α × β → γ → Prop} {t : β → γ → Prop}
    {xs : List α} {ys : List β} {zs : List γ} (first : List.Forall₂ r xs ys)
    (second : List.Forall₂ s (xs.zip ys) zs) (next : ∀ x, ∀ y ∈ ys, ∀ z, r x y → s (x, y) z → t y z) :
    List.Forall₂ t ys zs := by
  induction first generalizing zs with
  | nil =>
    cases second
    exact .nil
  | cons head _ ih =>
    cases second with
    | cons head' tail' =>
      exact .cons (next _ _ List.mem_cons_self _ head head')
        (ih tail' fun x y member => next x y (List.mem_cons_of_mem _ member))

theorem mapM_flatten (f : α → Except ε β) (xss : List (List α)) :
    (xss.mapM (List.mapM f)).map List.flatten = xss.flatten.mapM f := by
  induction xss with
  | nil => rfl
  | cons xs xss ih =>
    rw [List.mapM_cons, List.flatten_cons, List.mapM_append, ← ih]
    cases xs.mapM f with
    | error e => rfl
    | ok ys => cases xss.mapM (List.mapM f) <;> rfl

theorem map_eq_of_forall₂ {γ : Type} {rel : α → β → Prop} {f : α → γ} {g : β → γ} {xs : List α} {ys : List β}
    (related : List.Forall₂ rel xs ys) (same : ∀ x y, rel x y → f x = g y) : xs.map f = ys.map g := by
  induction related with
  | nil => rfl
  | cons head _ ih => rw [List.map_cons, List.map_cons, same _ _ head, ih]

theorem map_mapIdx_of_forall₂ {γ δ : Type} {rel : α → β → Prop} {f : Nat → α → γ} {g : Nat → β → γ} {view : γ → δ}
    {xs : List α} {ys : List β} (related : List.Forall₂ rel xs ys)
    (same : ∀ n x y, rel x y → view (f n x) = view (g n y)) : (xs.mapIdx f).map view = (ys.mapIdx g).map view := by
  induction related generalizing f g with
  | nil => rfl
  | cons head _ ih =>
    rw [List.mapIdx_cons, List.mapIdx_cons, List.map_cons, List.map_cons, same 0 _ _ head, ih fun n => same (n + 1)]

theorem getLast?_of_forall₂ {rel : α → β → Prop} {xs : List α} {ys : List β}
    (related : List.Forall₂ rel xs ys) :
    xs.getLast? = none ∧ ys.getLast? = none ∨ ∃ x y, xs.getLast? = some x ∧ ys.getLast? = some y ∧ rel x y := by
  have reversed : List.Forall₂ rel xs.reverse ys.reverse := List.rel_reverse related
  rw [List.getLast?_eq_head?_reverse, List.getLast?_eq_head?_reverse]
  generalize xs.reverse = xs', ys.reverse = ys' at reversed
  cases reversed with
  | nil => exact .inl ⟨rfl, rfl⟩
  | cons head _ => exact .inr ⟨_, _, rfl, rfl, head⟩

end Success

/-- Both fail with related errors, or both succeed with related results. -/
def AgreeOn {ε ε' α β : Type} (err : ε → ε' → Prop) (rel : α → β → Prop) : Except ε α → Except ε' β → Prop
  | .ok a, .ok b => rel a b
  | .error e, .error e' => err e e'
  | _, _ => False

abbrev Agree {ε ε' α β : Type} (rel : α → β → Prop) (x : Except ε α) (y : Except ε' β) : Prop :=
  AgreeOn (fun _ _ => True) rel x y

namespace AgreeOn

variable {ε ε' α β γ δ : Type} {err : ε → ε' → Prop} {rel : α → β → Prop} {rel' : γ → δ → Prop}

theorem bind_of_ok {x : Except ε α} {y : Except ε' β} {f : α → Except ε γ} {g : β → Except ε' δ}
    (h : AgreeOn err rel x y)
    (next : ∀ a b, x = .ok a → y = .ok b → rel a b → AgreeOn err rel' (f a) (g b)) :
    AgreeOn err rel' (x >>= f) (y >>= g) := by
  cases x <;> cases y <;> simp only [AgreeOn] at h
  · exact h
  · exact next _ _ rfl rfl h

theorem bind {x : Except ε α} {y : Except ε' β} {f : α → Except ε γ} {g : β → Except ε' δ}
    (h : AgreeOn err rel x y) (next : ∀ a b, rel a b → AgreeOn err rel' (f a) (g b)) :
    AgreeOn err rel' (x >>= f) (y >>= g) :=
  h.bind_of_ok fun a b _ _ => next a b

theorem map {x : Except ε α} {y : Except ε' β} {f : α → γ} {g : β → δ}
    (h : AgreeOn err rel x y) (next : ∀ a b, rel a b → rel' (f a) (g b)) :
    AgreeOn err rel' (x.map f) (y.map g) := by
  cases x <;> cases y <;> simp only [AgreeOn] at h
  · exact h
  · exact next _ _ h

theorem mapM {f : α → Except ε γ} {g : β → Except ε' δ} {xs : List α} {ys : List β}
    (h : List.Forall₂ (fun x y => AgreeOn err rel' (f x) (g y)) xs ys) :
    AgreeOn err (List.Forall₂ rel') (xs.mapM f) (ys.mapM g) := by
  induction h with
  | nil => exact .nil
  | cons head _ ih =>
    simp only [List.mapM_cons]
    exact head.bind fun a b hab => ih.bind fun as bs habs => .cons hab habs

theorem ite {c : Prop} [Decidable c] {x x' : Except ε α} {y y' : Except ε' β} (first : c → AgreeOn err rel x y)
    (second : ¬ c → AgreeOn err rel x' y') : AgreeOn err rel (if c then x else x') (if c then y else y') := by
  split
  · exact first ‹c›
  · exact second ‹¬ c›

theorem cases {x : Except ε α} {y : Except ε' β} (h : AgreeOn err rel x y) :
    (∃ a b, x = .ok a ∧ y = .ok b ∧ rel a b) ∨ ∃ e e', x = .error e ∧ y = .error e' ∧ err e e' := by
  cases x <;> cases y <;> simp only [AgreeOn] at h
  · exact .inr ⟨_, _, rfl, rfl, h⟩
  · exact .inl ⟨_, _, rfl, rfl, h⟩

theorem refl {err : ε → ε → Prop} (same : ∀ e, err e e) (x : Except ε α) : AgreeOn err (· = ·) x x := by
  cases x with
  | error e => exact same e
  | ok a => rfl

theorem foldlM {f : α → γ → Except ε α} {g : α → γ → Except ε' α}
    (step : ∀ a c, AgreeOn err (· = ·) (f a c) (g a c)) (xs : List γ) (a : α) :
    AgreeOn err (· = ·) (xs.foldlM f a) (xs.foldlM g a) := by
  induction xs generalizing a with
  | nil => rfl
  | cons x xs ih =>
    rw [List.foldlM_cons, List.foldlM_cons]
    refine (step a x).bind fun b c same => ?_
    subst same
    exact ih b

theorem of_ok_left {x : Except ε α} {y : Except ε' β} (h : AgreeOn err rel x y) {a : α}
    (ok : x = .ok a) : ∃ b, y = .ok b ∧ rel a b := by
  subst ok
  cases y with
  | error e => exact h.elim
  | ok b => exact ⟨b, rfl, h⟩

end AgreeOn

def FailsOnly {ε α : Type} (P : ε → Prop) (x : Except ε α) : Prop := ∀ e, x = .error e → P e

namespace FailsOnly

variable {ε ε' α β : Type} {P Q : ε → Prop} {x : Except ε α}

theorem of_ok {a : α} (ok : x = .ok a) : FailsOnly P x := by
  intro e failed
  rw [ok] at failed
  cases failed

theorem error {e : ε} (holds : P e) : FailsOnly P (.error e : Except ε α) := by
  intro e' failed
  cases failed
  exact holds

theorem mono (h : FailsOnly P x) (weaker : ∀ e, P e → Q e) : FailsOnly Q x :=
  fun e failed => weaker e (h e failed)

theorem bind {f : α → Except ε β} (first : FailsOnly P x) (next : ∀ a, x = .ok a → FailsOnly P (f a)) :
    FailsOnly P (x >>= f) := by
  cases x with
  | error e => exact error (first e rfl)
  | ok a => exact next a rfl

theorem map {f : α → β} (h : FailsOnly P x) : FailsOnly P (x.map f) := by
  cases x with
  | error e => exact error (h e rfl)
  | ok a => exact of_ok rfl

theorem mapError {P : ε' → Prop} {f : ε → ε'} (h : FailsOnly (fun e => P (f e)) x) :
    FailsOnly P (x.mapError f) := by
  cases x with
  | error e => exact error (h e rfl)
  | ok a => exact of_ok rfl

theorem mapM {f : α → Except ε β} {xs : List α} (each : ∀ a ∈ xs, FailsOnly P (f a)) : FailsOnly P (xs.mapM f) := by
  induction xs with
  | nil => exact of_ok rfl
  | cons a xs ih =>
    rw [List.mapM_cons]
    refine (each a List.mem_cons_self).bind fun _ _ => ?_
    exact (ih fun a member => each a (List.mem_cons_of_mem _ member)).bind fun _ _ => of_ok rfl

theorem ite {c : Prop} [Decidable c] {y : Except ε α} (first : c → FailsOnly P x) (second : ¬ c → FailsOnly P y) :
    FailsOnly P (if c then x else y) := by
  split
  · exact first ‹c›
  · exact second ‹¬ c›

end FailsOnly

end EventScript
