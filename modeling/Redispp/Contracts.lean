import Redispp.StateExcept

/-!
# Contracts

From a state in the invariant a program that meets its contract returns a
value with the postcondition and a state in the invariant again, or fails in a
way that is allowed.
-/

namespace StateExcept

variable {S ε α β : Type}

structure Meets (inv : S → Prop) (may : ε → Prop)
    (m : StateT S (Except ε) α) (post : α → Prop) : Prop where
  returns : ∀ {s next : S} {a : α}, inv s → m.run s = .ok (a, next) →
    inv next ∧ post a
  fails : ∀ {s : S} {e : ε}, inv s → m.run s = .error e → may e

namespace Meets

variable {inv : S → Prop} {may : ε → Prop} {m other : StateT S (Except ε) α}
  {k : α → StateT S (Except ε) β} {post wider : α → Prop} {last : β → Prop}

theorem pure {a : α} (h : post a) : Meets inv may (pure a) post where
  returns hs hrun := by
    obtain ⟨rfl, rfl⟩ := run_pure_eq_ok hrun
    exact ⟨hs, h⟩
  fails _ hrun := by
    rw [run_pure] at hrun
    contradiction

theorem throw {e : ε} (h : may e) :
    Meets inv may (throw e : StateT S (Except ε) α) post where
  returns _ hrun := by
    rw [run_throw] at hrun
    contradiction
  fails _ hrun := by
    rw [run_throw] at hrun
    exact Except.error.inj hrun ▸ h

theorem bind (hm : Meets inv may m post)
    (hk : ∀ a, post a → Meets inv may (k a) last) :
    Meets inv may (m >>= k) last where
  returns hs hrun := by
    obtain ⟨a, mid, hfirst, hrest⟩ := run_bind_eq_ok hrun
    obtain ⟨hmid, ha⟩ := hm.returns hs hfirst
    exact (hk a ha).returns hmid hrest
  fails {s e} hs hrun := by
    cases hfirst : m.run s with
    | error e' =>
        rw [run_bind_of_error hfirst] at hrun
        exact Except.error.inj hrun ▸ hm.fails hs hfirst
    | ok result =>
        obtain ⟨a, mid⟩ := result
        rw [run_bind_of_ok hfirst] at hrun
        obtain ⟨hmid, ha⟩ := hm.returns hs hfirst
        exact (hk a ha).fails hmid hrun

theorem weaken (hm : Meets inv may m post) (h : ∀ a, post a → wider a) :
    Meets inv may m wider where
  returns hs hrun := ⟨(hm.returns hs hrun).1, h _ (hm.returns hs hrun).2⟩
  fails := hm.fails

theorem ite {p : Prop} [Decidable p] (hthen : p → Meets inv may m post)
    (helse : ¬p → Meets inv may other post) :
    Meets inv may (if p then m else other) post := by
  split
  · next h => exact hthen h
  · next h => exact helse h

theorem get_bind {k : S → StateT S (Except ε) β}
    (hk : ∀ s, inv s → Meets inv may (k s) last) :
    Meets inv may (get >>= k) last where
  returns {s _ _} hs hrun := by
    rw [run_get_bind] at hrun
    exact (hk s hs).returns hs hrun
  fails {s _} hs hrun := by
    rw [run_get_bind] at hrun
    exact (hk s hs).fails hs hrun

theorem modify_bind {f : S → S} {k : PUnit → StateT S (Except ε) β}
    (hf : ∀ s, inv s → inv (f s)) (hk : Meets inv may (k ⟨⟩) last) :
    Meets inv may (modify f >>= k) last where
  returns {s _ _} hs hrun := by
    rw [run_modify_bind] at hrun
    exact hk.returns (hf s hs) hrun
  fails {s _} hs hrun := by
    rw [run_modify_bind] at hrun
    exact hk.fails (hf s hs) hrun

end Meets

end StateExcept
