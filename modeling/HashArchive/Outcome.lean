/-
  HashArchive.Outcome

  How steps that may fail follow one another.
-/

namespace HashArchive.Outcome

variable {ε α β : Type}

/-- Two steps succeed when the first does and the second does on its value. -/
theorem bind_eq_ok_iff {x : Except ε α} {f : α → Except ε β} {b : β} :
    (x >>= f) = .ok b ↔ ∃ a, x = .ok a ∧ f a = .ok b := by
  cases x with
  | error e => simp [bind, Except.bind]
  | ok a => simp [bind, Except.bind]

/-- Two steps fail when the first does, or when the second does on its value. -/
theorem bind_eq_error_iff {x : Except ε α} {f : α → Except ε β} {e : ε} :
    (x >>= f) = .error e ↔ x = .error e ∨ ∃ a, x = .ok a ∧ f a = .error e := by
  cases x with
  | error e' => simp [bind, Except.bind]
  | ok a => simp [bind, Except.bind]

@[simp] theorem ok_bind (a : α) (f : α → Except ε β) : (Except.ok a >>= f) = f a := rfl

@[simp] theorem error_bind (e : ε) (f : α → Except ε β) :
    ((Except.error e : Except ε α) >>= f) = .error e := rfl

theorem exists_of_isOk {x : Except ε α} (h : x.isOk = true) : ∃ a, x = .ok a := by
  cases x with
  | error e => cases h
  | ok a => exact ⟨a, rfl⟩

theorem exists_of_any {x : Except ε α} {p : α → Bool} (h : x.toOption.any p = true) :
    ∃ a, x = .ok a ∧ p a = true := by
  cases x with
  | error e => cases h
  | ok a => exact ⟨a, rfl, h⟩

/-- Steps that agree in a part of their values lead on alike when only that part is looked at. -/
theorem bind_eq_of_map_eq {γ δ : Type} {x : Except ε α} {y : Except ε β} {f : α → γ} {g : β → γ}
    {k : α → Except ε δ} {l : β → Except ε δ} (h : x.map f = y.map g)
    (hkl : ∀ a b, f a = g b → k a = l b) : x.bind k = y.bind l := by
  cases x with
  | error e =>
    cases y with
    | error e' => rw [Except.error.inj h, Except.bind, Except.bind]
    | ok b => cases h
  | ok a =>
    cases y with
    | error e => cases h
    | ok b => exact hkl a b (Except.ok.inj h)

/-- Steps that answer alike in what is looked at still do one after another. -/
theorem map_bind_eq {γ δ : Type} {x : Except ε α} {y : Except ε γ} {k : α → Except ε β}
    {l : γ → Except ε δ} {f : β → δ} {g : α → γ} (h : x.map g = y)
    (hkl : ∀ a, (k a).map f = l (g a)) : (x >>= k).map f = y >>= l := by
  subst h
  cases x with
  | error e => rfl
  | ok a => exact hkl a

/-- A step that returns a pair gives that pair. -/
theorem pure_pair_eq_ok_iff {a a' : α} {b b' : β} :
    (pure (a, b) : Except ε (α × β)) = .ok (a', b') ↔ a = a' ∧ b = b' := by
  constructor
  · intro h
    exact Prod.mk.inj (Except.ok.inj h)
  · rintro ⟨rfl, rfl⟩
    rfl

/-- A step for each item of a list gives all values when each step gives its own. -/
theorem mapM_eq_ok {f : α → Except ε β} {g : α → β} {items : List α}
    (h : ∀ item ∈ items, f item = .ok (g item)) : items.mapM f = .ok (items.map g) := by
  induction items with
  | nil => rfl
  | cons item items ih =>
    rw [List.mapM_cons, h item List.mem_cons_self, ok_bind,
      ih fun other hmem => h other (List.mem_cons_of_mem item hmem), ok_bind]
    rfl

/-- Steps for all items of a list succeed only if each does, and its value is among theirs. -/
theorem exists_of_mapM_eq_ok {f : α → Except ε β} {items : List α} {values : List β}
    (h : items.mapM f = .ok values) {item : α} (hmem : item ∈ items) :
    ∃ value ∈ values, f item = .ok value := by
  induction items generalizing values with
  | nil => cases hmem
  | cons first items ih =>
    rw [List.mapM_cons] at h
    obtain ⟨value, hvalue, h⟩ := bind_eq_ok_iff.mp h
    obtain ⟨others, hothers, h⟩ := bind_eq_ok_iff.mp h
    obtain rfl := Except.ok.inj h
    rcases List.mem_cons.mp hmem with rfl | hmem
    · exact ⟨value, List.mem_cons_self, hvalue⟩
    · obtain ⟨other, hother, hstep⟩ := ih hothers hmem
      exact ⟨other, List.mem_cons_of_mem value hother, hstep⟩

/-- What holds at first, and after the step for each item if it did before, holds at last. -/
theorem foldlM_induct {f : α → β → Except ε α} {items : List β} {p : α → Prop} {first last : α}
    (hrun : items.foldlM f first = .ok last) (hfirst : p first)
    (hstep : ∀ item ∈ items, ∀ before after, f before item = .ok after → p before → p after) :
    p last := by
  induction items generalizing first with
  | nil =>
    obtain rfl := Except.ok.inj hrun
    exact hfirst
  | cons item items ih =>
    rw [List.foldlM_cons] at hrun
    obtain ⟨next, hnext, hrun⟩ := bind_eq_ok_iff.mp hrun
    apply ih hrun
    · exact hstep item List.mem_cons_self first next hnext hfirst
    · intro other hmem
      exact hstep other (List.mem_cons_of_mem item hmem)

end HashArchive.Outcome
