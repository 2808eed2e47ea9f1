import Redispp.Runs

/-!
# Simulations

Two transition relations over the same labels, each an input and the output it
gives.  As long as a condition on the abstract states and the inputs holds,
each step of one is a step of the other between related states; the condition
is asked for along all the abstract runs that the inputs may take.
-/

namespace Runs

variable {S T I O : Type}

/-- The condition holds before each of the inputs, whatever the outputs. -/
def Along (step : S → I × O → S → Prop) (cond : S → I → Prop) :
    S → List I → Prop
  | _, [] => True
  | s, input :: inputs => cond s input ∧
      ∀ output next, step s (input, output) next → Along step cond next inputs

structure Bisimulation (cstep : T → I × O → T → Prop)
    (astep : S → I × O → S → Prop) (cond : S → I → Prop)
    (rel : T → S → Prop) : Prop where
  forth : ∀ t s input output next, rel t s → cond s input →
    cstep t (input, output) next →
    ∃ after, astep s (input, output) after ∧ rel next after
  back : ∀ t s input output after, rel t s → cond s input →
    astep s (input, output) after →
    ∃ next, cstep t (input, output) next ∧ rel next after

variable {astep : S → I × O → S → Prop} {cstep : T → I × O → T → Prop}
  {cond : S → I → Prop} {rel : T → S → Prop} {t : T} {s : S}
  {events : List (I × O)} {inputs : List I}

/-- The condition is needed on the inputs so far, and holds on those to come. -/
theorem Bisimulation.run_forth (h : Bisimulation cstep astep cond rel)
    {last : T} (hrun : Run cstep t events last) (hrel : rel t s)
    (halong : Along astep cond s (events.map Prod.fst ++ inputs)) :
    ∃ after, Run astep s events after ∧ rel last after ∧
      Along astep cond after inputs := by
  induction events generalizing t s with
  | nil =>
      rw [hrun.of_nil]
      exact ⟨s, .nil, hrel, halong⟩
  | cons event events ih =>
      obtain ⟨mid, hfirst, hrest⟩ := hrun.of_cons
      obtain ⟨input, output⟩ := event
      obtain ⟨next, hnext, hmid⟩ := h.forth t s input output mid hrel halong.1
        hfirst
      obtain ⟨after, hafter, hlast, hinputs⟩ := ih hrest hmid
        (halong.2 output next hnext)
      exact ⟨after, hafter.cons hnext, hlast, hinputs⟩

theorem Bisimulation.run_back (h : Bisimulation cstep astep cond rel)
    {after : S} (hrun : Run astep s events after) (hrel : rel t s)
    (halong : Along astep cond s (events.map Prod.fst)) :
    ∃ last, Run cstep t events last ∧ rel last after := by
  induction events generalizing t s with
  | nil =>
      rw [hrun.of_nil]
      exact ⟨t, .nil, hrel⟩
  | cons event events ih =>
      obtain ⟨mid, hfirst, hrest⟩ := hrun.of_cons
      obtain ⟨input, output⟩ := event
      obtain ⟨next, hnext, hmid⟩ := h.back t s input output mid hrel halong.1
        hfirst
      obtain ⟨last, hlast, hafter⟩ := ih hrest hmid
        (halong.2 output mid hfirst)
      exact ⟨last, hlast.cons hnext, hafter⟩

end Runs
