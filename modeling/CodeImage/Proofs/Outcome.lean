import Mathlib.Tactic

namespace CodeImage

variable {ε α β : Type}

theorem bind_ok_iff {x : Except ε α} {f : α → Except ε β} {b : β} :
    x >>= f = .ok b ↔ ∃ a, x = .ok a ∧ f a = .ok b := by
  cases x with
  | error e => simp [bind, Except.bind]
  | ok a => simp [bind, Except.bind]

theorem map_ok_iff {x : Except ε α} {f : α → β} {b : β} : x.map f = .ok b ↔ ∃ a, x = .ok a ∧ f a = b := by
  cases x with
  | error e => simp [Except.map]
  | ok a => simp [Except.map]

theorem exists_of_toBool {x : Except ε α} (done : x.toBool = true) : ∃ a, x = .ok a := by
  cases x with
  | error e => cases done
  | ok a => exact ⟨a, rfl⟩

@[simp]
theorem ok_bind (a : α) (f : α → Except ε β) : (Except.ok a >>= f) = f a := rfl

@[simp]
theorem pure_eq_ok (a : α) : (pure a : Except ε α) = .ok a := rfl

theorem mapM_ok_iff {f : α → Except ε β} {xs : List α} {ys : List β} :
    xs.mapM f = .ok ys ↔ List.Forall₂ (fun x y => f x = .ok y) xs ys := by
  induction xs generalizing ys with
  | nil =>
    rw [List.mapM_nil, pure_eq_ok, List.forall₂_nil_left_iff]
    exact ⟨fun same => (Except.ok.inj same).symm, fun empty => by rw [empty]⟩
  | cons x rest ih =>
    rw [List.mapM_cons, bind_ok_iff]
    constructor
    · rintro ⟨y, first, more⟩
      obtain ⟨later, done, result⟩ := bind_ok_iff.mp more
      cases result
      exact .cons first (ih.mp done)
    · rintro (_ | ⟨first, later⟩)
      exact ⟨_, first, by rw [ih.mpr later]; rfl⟩

theorem mapM_cons_ok {f : α → Except ε β} {x : α} {xs : List α} {y : β} {ys : List β} (first : f x = .ok y)
    (later : xs.mapM f = .ok ys) : (x :: xs).mapM f = .ok (y :: ys) :=
  mapM_ok_iff.mpr (.cons first (mapM_ok_iff.mp later))

theorem exists_of_mapM_error {f : α → Except ε β} {xs : List α} {e : ε} (failed : xs.mapM f = .error e) :
    ∃ x ∈ xs, f x = .error e := by
  induction xs with
  | nil => cases failed
  | cons x rest ih =>
    rw [List.mapM_cons] at failed
    cases first : f x with
    | error e' =>
      rw [first] at failed
      cases failed
      exact ⟨x, List.mem_cons_self, first⟩
    | ok y =>
      rw [first, ok_bind] at failed
      cases later : rest.mapM f with
      | ok ys =>
        rw [later] at failed
        cases failed
      | error e' =>
        rw [later] at failed
        cases failed
        obtain ⟨x', member, here⟩ := ih later
        exact ⟨x', List.mem_cons_of_mem _ member, here⟩

theorem exists_mapM_ok {f : α → Except ε β} {xs : List α} (each : ∀ x ∈ xs, ∃ y, f x = .ok y) : ∃ ys, xs.mapM f = .ok ys := by
  cases done : xs.mapM f with
  | ok ys => exact ⟨ys, rfl⟩
  | error e =>
    obtain ⟨x, member, failed⟩ := exists_of_mapM_error done
    obtain ⟨y, here⟩ := each x member
    cases failed.symm.trans here

-- Naming each result does not change when a sequence succeeds.
theorem mapM_named {γ : Type} (f : α → Except ε β) (name : α → γ) (xs : List α) :
    xs.mapM (fun x => do return (name x, ← f x)) = (xs.mapM f).map fun ys => (xs.map name).zip ys := by
  induction xs with
  | nil => rfl
  | cons x rest ih =>
    rw [List.mapM_cons, List.mapM_cons, ih]
    cases f x with
    | error e => rfl
    | ok y =>
      cases rest.mapM f with
      | error e => rfl
      | ok ys => rfl

theorem mapM_ok_of_forall {f : α → Except ε β} {g : α → β} {xs : List α} (each : ∀ x ∈ xs, f x = .ok (g x)) :
    xs.mapM f = .ok (xs.map g) := by
  rw [mapM_ok_iff, List.forall₂_map_right_iff, List.forall₂_same]
  exact each

section Related

variable {R : α → β → Prop} {as : List α} {bs : List β}

theorem exists_of_forall₂_right (related : List.Forall₂ R as bs) : ∀ b ∈ bs, ∃ a ∈ as, R a b := by
  induction related with
  | nil => intro b member; cases member
  | @cons a b _ _ first _ ih =>
    rw [List.forall_mem_cons]
    refine ⟨⟨a, List.mem_cons_self, first⟩, ?_⟩
    intro b' member
    obtain ⟨a', inside, later⟩ := ih b' member
    exact ⟨a', List.mem_cons_of_mem _ inside, later⟩

theorem exists_of_forall₂_left (related : List.Forall₂ R as bs) : ∀ a ∈ as, ∃ b ∈ bs, R a b := by
  intro a member
  exact exists_of_forall₂_right related.flip a member

theorem forall₂_of_map_eq {γ : Type} {f : β → γ} {cs : List β} (related : List.Forall₂ R as bs)
    (same : cs.map f = bs.map f) : List.Forall₂ (fun a c => ∃ b, R a b ∧ f c = f b) as cs := by
  induction related generalizing cs with
  | nil =>
    obtain rfl : cs = [] := by simpa using same
    exact .nil
  | @cons a b _ _ first _ ih =>
    cases cs with
    | nil => simp at same
    | cons c cs =>
      obtain ⟨head, tail⟩ := List.cons.inj same
      exact .cons ⟨b, first, head⟩ (ih tail)

theorem forall₂_zipWith {γ δ : Type} {S : γ → δ → Prop} (related : List.Forall₂ R as bs) {f : β → γ} {g : α → β → δ}
    (step : ∀ a b, R a b → S (f b) (g a b)) : List.Forall₂ S (bs.map f) (List.zipWith g as bs) := by
  induction related with
  | nil => exact .nil
  | cons first _ ih => exact .cons (step _ _ first) ih

theorem forall₂_zipWith_right {γ : Type} {S : α → γ → Prop} (related : List.Forall₂ R as bs) {g : α → β → γ}
    (step : ∀ a ∈ as, ∀ b, R a b → S a (g a b)) : List.Forall₂ S as (List.zipWith g as bs) := by
  induction related with
  | nil => exact .nil
  | cons first _ ih =>
    exact .cons (step _ List.mem_cons_self _ first) (ih fun a member => step a (List.mem_cons_of_mem _ member))

theorem map_zipWith_right {γ δ : Type} (related : List.Forall₂ R as bs) {g : α → β → γ} {f : γ → δ} {h : β → δ}
    (step : ∀ a ∈ as, ∀ b, R a b → f (g a b) = h b) : (List.zipWith g as bs).map f = bs.map h := by
  induction related with
  | nil => rfl
  | cons first _ ih =>
    rw [List.zipWith_cons_cons, List.map_cons, List.map_cons, step _ List.mem_cons_self _ first,
      ih fun a member => step a (List.mem_cons_of_mem _ member)]

-- What corresponds to the same list corresponds to each other.
theorem forall₂_join {γ : Type} {S : α → γ → Prop} {T : β → γ → Prop} {cs : List γ} (left : List.Forall₂ R as bs)
    (right : List.Forall₂ S as cs) (step : ∀ a b c, R a b → S a c → T b c) : List.Forall₂ T bs cs := by
  induction left generalizing cs with
  | nil =>
    cases right
    exact .nil
  | cons first _ ih =>
    cases right with
    | cons second later => exact .cons (step _ _ _ first second) (ih later)

theorem getElem?_of_forall₂ (related : List.Forall₂ R as bs) {i : Nat} {a : α} {b : β} (left : as[i]? = some a)
    (right : bs[i]? = some b) : R a b := by
  induction related generalizing i with
  | nil => cases left
  | cons first _ ih =>
    cases i with
    | zero =>
      cases left
      cases right
      exact first
    | succ i => exact ih left right

end Related
end CodeImage
