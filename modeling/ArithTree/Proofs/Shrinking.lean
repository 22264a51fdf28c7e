import ArithTree.Proofs.Subtrees

namespace ArithTree.Expr

-- Shrinking step by step, with the tree after each step. Every step goes on with one of
-- the candidates.
def ShrinksAlong : Expr → List Expr → Expr → Prop
  | first, [], last => first = last
  | first, next :: rest, last => next ∈ first.shrink ∧ ShrinksAlong next rest last

variable {t u : Expr} {distance : ℕ}

theorem hasAt_zero_iff : HasAt t 0 u ↔ t = u := by
  constructor
  · intro h
    cases h
    rfl
  · rintro rfl
    exact .root t

-- A step goes to the trees right below the root. The way from there to a subtree is one
-- shorter than the way from the root.
theorem hasAt_succ_iff :
    HasAt t (distance + 1) u ↔ ∃ candidate ∈ t.shrink, HasAt candidate distance u := by
  constructor
  · intro h
    cases h with
    | child h => exact ⟨_, List.mem_singleton_self _, h⟩
    | left h => exact ⟨_, List.mem_cons_self, h⟩
    | right h => exact ⟨_, List.mem_cons_of_mem _ (List.mem_singleton_self _), h⟩
  · rintro ⟨candidate, hcandidate, h⟩
    cases t with
    | leaf => exact absurd hcandidate List.not_mem_nil
    | unary op child =>
      obtain rfl := List.mem_singleton.mp hcandidate
      exact .child h
    | binary op left right =>
      rcases List.mem_cons.mp hcandidate with rfl | hcandidate
      · exact .left h
      · obtain rfl := List.mem_singleton.mp hcandidate
        exact .right h

-- As many steps as a subtree is away from the root lead to it, and steps lead nowhere else.
theorem hasAt_iff_exists_shrinksAlong :
    HasAt t distance u ↔ ∃ steps, t.ShrinksAlong steps u ∧ steps.length = distance := by
  induction distance generalizing t with
  | zero =>
    rw [hasAt_zero_iff]
    constructor
    · intro h
      exact ⟨[], h, rfl⟩
    · rintro ⟨steps, hsteps, hlength⟩
      obtain rfl := List.length_eq_zero_iff.mp hlength
      exact hsteps
  | succ distance ih =>
    rw [hasAt_succ_iff]
    constructor
    · rintro ⟨candidate, hcandidate, h⟩
      obtain ⟨steps, hsteps, hlength⟩ := ih.mp h
      exact ⟨candidate :: steps, ⟨hcandidate, hsteps⟩, congrArg Nat.succ hlength⟩
    · rintro ⟨_ | ⟨candidate, steps⟩, hsteps, hlength⟩
      · cases hlength
      · exact ⟨candidate, hsteps.1, ih.mpr ⟨steps, hsteps.2, Nat.succ.inj hlength⟩⟩

-- The way into the deeper child of every binary operator is as long as the tree is deep.
theorem exists_hasAt_depth (t : Expr) : ∃ u, HasAt t t.depth u := by
  induction t with
  | leaf v => exact ⟨leaf v, .root _⟩
  | unary op child ih =>
    obtain ⟨u, h⟩ := ih
    exact ⟨u, .child h⟩
  | binary op left right ihl ihr =>
    rw [depth]
    rcases Nat.le_total left.depth right.depth with hle | hle
    · obtain ⟨u, h⟩ := ihr
      rw [Nat.max_eq_right hle]
      exact ⟨u, .right h⟩
    · obtain ⟨u, h⟩ := ihl
      rw [Nat.max_eq_left hle]
      exact ⟨u, .left h⟩

theorem shrink_eq_nil_iff : t.shrink = [] ↔ ∃ v, t = leaf v := by
  cases t <;> simp [shrink]

-- Shrinking again and again reaches the subtrees of a tree and nothing else. No run has more
-- steps than the tree is deep, whatever candidates are chosen, and one run has as many. A tree
-- on which shrinking cannot go on is a leaf.
theorem exists_shrinksAlong_iff_hasAt_and_length_le_depth (t : Expr) :
    (∀ u, (∃ steps, t.ShrinksAlong steps u) ↔ ∃ distance, HasAt t distance u) ∧
    (∀ steps u, t.ShrinksAlong steps u → steps.length ≤ t.depth) ∧
    (∃ steps u, t.ShrinksAlong steps u ∧ steps.length = t.depth) ∧
    (t.shrink = [] ↔ ∃ v, t = leaf v) := by
  refine ⟨fun u => ?_, fun steps u hsteps => ?_, ?_, shrink_eq_nil_iff⟩
  · constructor
    · rintro ⟨steps, hsteps⟩
      exact ⟨steps.length, hasAt_iff_exists_shrinksAlong.mpr ⟨steps, hsteps, rfl⟩⟩
    · rintro ⟨distance, h⟩
      obtain ⟨steps, hsteps, -⟩ := hasAt_iff_exists_shrinksAlong.mp h
      exact ⟨steps, hsteps⟩
  · have h := hasAt_iff_exists_shrinksAlong.mpr ⟨steps, hsteps, rfl⟩
    exact Nat.le_of_add_right_le h.add_depth_le
  · obtain ⟨u, h⟩ := t.exists_hasAt_depth
    obtain ⟨steps, hsteps, hlength⟩ := hasAt_iff_exists_shrinksAlong.mp h
    exact ⟨steps, u, hsteps, hlength⟩

end ArithTree.Expr
