/-!
# Programs with a state that may fail

Runs of programs in `StateT` over `Except`, computed forwards through a
sequence and taken apart backwards from a result.
-/

namespace StateExcept

variable {S ε α β : Type} {m : StateT S (Except ε) α}
  {k : α → StateT S (Except ε) β} {s next last : S} {a : α} {b : β} {e : ε}

@[simp] theorem pure_eq_ok (a : α) : (pure a : Except ε α) = .ok a := rfl

theorem run_pure (a : α) (s : S) :
    (pure a : StateT S (Except ε) α).run s = .ok (a, s) := rfl

theorem run_throw (e : ε) (s : S) :
    (throw e : StateT S (Except ε) α).run s = .error e := rfl

theorem run_get_bind {k : S → StateT S (Except ε) β} :
    (get >>= k).run s = (k s).run s := rfl

theorem run_modify_bind {f : S → S} {k : PUnit → StateT S (Except ε) β} :
    (modify f >>= k).run s = (k ⟨⟩).run (f s) := rfl

theorem run_bind_of_ok (h : m.run s = .ok (a, next)) :
    (m >>= k).run s = (k a).run next := by
  rw [StateT.run_bind, h]
  rfl

theorem run_bind_of_error (h : m.run s = .error e) :
    (m >>= k).run s = .error e := by
  rw [StateT.run_bind, h]
  rfl

/-! ## From a result backwards -/

theorem run_unique {a' : α} (h : m.run s = .ok (a, next))
    (h' : m.run s = .ok (a', last)) : a = a' ∧ next = last := by
  rw [h] at h'
  simpa using h'

theorem run_pure_eq_ok {a' : α}
    (h : (pure a : StateT S (Except ε) α).run s = .ok (a', next)) :
    a' = a ∧ next = s :=
  run_unique h (run_pure a s)

theorem run_bind_eq_ok (h : (m >>= k).run s = .ok (b, last)) :
    ∃ a next, m.run s = .ok (a, next) ∧ (k a).run next = .ok (b, last) := by
  cases hm : m.run s with
  | error e =>
      rw [run_bind_of_error hm] at h
      contradiction
  | ok result =>
      obtain ⟨a, next⟩ := result
      rw [run_bind_of_ok hm] at h
      exact ⟨a, next, rfl, h⟩

theorem run_discarded_eq_ok
    (h : (m >>= fun _ => pure ()).run s = .ok ((), last)) :
    ∃ a, m.run s = .ok (a, last) := by
  obtain ⟨a, next, hm, hpure⟩ := run_bind_eq_ok h
  rw [(run_pure_eq_ok hpure).2]
  exact ⟨a, hm⟩

end StateExcept
