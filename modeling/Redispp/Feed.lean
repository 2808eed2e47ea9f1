import Redispp.StateExcept
import Mathlib.Tactic

/-!
# Receivers on a feed

A feed is what a peer has in store for a reader: the items still to come and
what happens once they are gone.  A receiver is a program that takes items off
the front of a feed and may fail.  The central notion is `Reads`: on every feed
that begins with the given bytes the receiver returns the given value and
leaves exactly the rest, whatever the rest is.  `Local` is the converse
direction, from one successful run to all feeds that begin in the same way.
-/

structure Feed (E K : Type) where
  pending : List E
  ending : K
  deriving DecidableEq, Repr

namespace Feed

open StateExcept

variable {E K B ε α β : Type}

def push (items : List E) (feed : Feed E K) : Feed E K :=
  { feed with pending := items ++ feed.pending }

@[simp] theorem push_nil (feed : Feed E K) : feed.push [] = feed := rfl

@[simp] theorem push_append (first second : List E) (feed : Feed E K) :
    feed.push (first ++ second) = (feed.push second).push first := by
  simp [push]

@[simp] theorem pending_push (items : List E) (feed : Feed E K) :
    (feed.push items).pending = items ++ feed.pending := rfl

@[simp] theorem ending_push (items : List E) (feed : Feed E K) :
    (feed.push items).ending = feed.ending := rfl

theorem push_left_injective {first second : List E} {feed : Feed E K}
    (h : feed.push first = feed.push second) : first = second := by
  have hpending := congrArg Feed.pending h
  simpa using hpending

theorem eq_push {feed : Feed E K} {first second : List E}
    (h : feed.pending = first ++ second) :
    feed = (⟨second, feed.ending⟩ : Feed E K).push first := by
  cases feed
  simp only at h
  simp [push, h]

/-! ## Items that carry bytes -/

def Carries (carry : E → Option B) (items : List E) (bytes : List B) : Prop :=
  items.map carry = bytes.map some

section Carries

variable {carry : E → Option B} {items first second : List E}
  {bytes front back : List B}

@[simp] theorem carries_nil_iff : Carries carry items [] ↔ items = [] := by
  simp [Carries]

theorem carries_cons_iff {b : B} :
    Carries carry items (b :: bytes) ↔
      ∃ item rest, items = item :: rest ∧ carry item = some b ∧
        Carries carry rest bytes := by
  cases items with
  | nil => simp [Carries]
  | cons item rest => simp [Carries]

theorem carries_append_iff :
    Carries carry items (front ++ back) ↔
      ∃ first second, items = first ++ second ∧
        Carries carry first front ∧ Carries carry second back := by
  simp only [Carries, List.map_append]
  rw [List.map_eq_append_iff]

theorem Carries.append (hfirst : Carries carry first front)
    (hsecond : Carries carry second back) :
    Carries carry (first ++ second) (front ++ back) :=
  carries_append_iff.mpr ⟨first, second, rfl, hfirst, hsecond⟩

theorem Carries.length_eq (h : Carries carry items bytes) :
    items.length = bytes.length := by
  simpa using congrArg List.length h

theorem Carries.bytes_unique {other : List B}
    (h : Carries carry items bytes) (hother : Carries carry items other) :
    bytes = other := by
  have hmap : bytes.map some = other.map some := h.symm.trans hother
  exact List.map_injective_iff.mpr (Option.some_injective B) hmap

theorem Carries.split (h : Carries carry (first ++ second) bytes) :
    ∃ front back, bytes = front ++ back ∧
      Carries carry first front ∧ Carries carry second back := by
  unfold Carries at h
  rw [List.map_append] at h
  obtain ⟨front, back, hbytes, hfront, hback⟩ :=
    List.append_eq_map_iff.mp h
  exact ⟨front, back, hbytes, hfront.symm, hback.symm⟩

end Carries

/-! ## Receivers -/

abbrev Receiver (E K ε α : Type) := StateT (Feed E K) (Except ε) α

/-! ## Exact reads -/

/-- On every feed that begins with these bytes, the receiver returns `a` and
leaves exactly what followed them. -/
def Reads (carry : E → Option B) (m : Receiver E K ε α)
    (bytes : List B) (a : α) : Prop :=
  ∀ items (feed : Feed E K), Carries carry items bytes →
    m.run (feed.push items) = .ok (a, feed)

section Reads

variable {carry : E → Option B} {m : Receiver E K ε α}
  {k : α → Receiver E K ε β} {bytes front back : List B} {a : α} {b : β}

theorem Reads.pure (a : α) :
    Reads carry (pure a : Receiver E K ε α) [] a := by
  intro items feed hitems
  rw [carries_nil_iff.mp hitems]
  exact run_pure a feed

theorem Reads.bind (hm : Reads carry m front a)
    (hk : Reads carry (k a) back b) :
    Reads carry (m >>= k) (front ++ back) b := by
  intro items feed hitems
  obtain ⟨first, second, rfl, hfirst, hsecond⟩ :=
    carries_append_iff.mp hitems
  rw [push_append, run_bind_of_ok (hm first _ hfirst)]
  exact hk second feed hsecond

theorem Reads.bind_pure (hm : Reads carry m bytes a)
    (hk : k a = Pure.pure b) : Reads carry (m >>= k) bytes b := by
  have hb : Reads carry (k a) [] b := by
    rw [hk]
    exact Reads.pure b
  simpa using hm.bind hb

end Reads

/-! ## Several receivers in turn -/

def inTurn : List (Receiver E K ε α) → Receiver E K ε (List α)
  | [] => pure []
  | m :: rest => do
      let a ← m
      let others ← inTurn rest
      return a :: others

theorem inTurn_length {ms : List (Receiver E K ε α)} {feed next : Feed E K}
    {values : List α} (h : (inTurn ms).run feed = .ok (values, next)) :
    values.length = ms.length := by
  induction ms generalizing feed next values with
  | nil =>
      obtain ⟨rfl, _⟩ := run_pure_eq_ok h
      rfl
  | cons m rest ih =>
      obtain ⟨a, after, _, hrest⟩ := run_bind_eq_ok h
      obtain ⟨others, last, hothers, hpure⟩ := run_bind_eq_ok hrest
      obtain ⟨rfl, _⟩ := run_pure_eq_ok hpure
      simp [ih hothers]

/-- Each receiver reads its own bytes exactly. -/
inductive ReadsEach (carry : E → Option B) :
    List (Receiver E K ε α) → List (List B) → List α → Prop
  | nil : ReadsEach carry [] [] []
  | cons {m : Receiver E K ε α} {bytes : List B} {a : α}
      {rest : List (Receiver E K ε α)} {others : List (List B)}
      {values : List α} :
      Reads carry m bytes a → ReadsEach carry rest others values →
      ReadsEach carry (m :: rest) (bytes :: others) (a :: values)

section ReadsEach

variable {carry : E → Option B} {ms : List (Receiver E K ε α)}
  {parts : List (List B)} {values : List α}

theorem ReadsEach.inTurn (h : ReadsEach carry ms parts values) :
    Reads carry (inTurn ms) parts.flatten values := by
  induction h with
  | nil => exact Reads.pure []
  | cons hm _ ih => exact hm.bind (ih.bind_pure rfl)

theorem ReadsEach.replicate {m : Receiver E K ε α} {bytes : List B} {a : α}
    (h : Reads carry m bytes a) (n : ℕ) :
    ReadsEach carry (List.replicate n m) (List.replicate n bytes)
      (List.replicate n a) := by
  induction n with
  | zero => exact .nil
  | succ n ih => exact .cons h ih

/-- One receiver may be given other bytes; the others are not affected. -/
theorem ReadsEach.set (h : ReadsEach carry ms parts values) {index : ℕ}
    {m : Receiver E K ε α} {bytes : List B} {a : α}
    (hindex : ms[index]? = some m) (hm : Reads carry m bytes a) :
    ReadsEach carry ms (parts.set index bytes) (values.set index a) := by
  induction h generalizing index with
  | nil => simp at hindex
  | cons hhead htail ih =>
      cases index with
      | zero =>
          simp only [List.getElem?_cons_zero, Option.some.injEq] at hindex
          subst hindex
          exact .cons hm htail
      | succ index =>
          simp only [List.getElem?_cons_succ] at hindex
          exact .cons hhead (ih hindex)

end ReadsEach

/-! ## Locality -/

/-- A run that returned depends only on the bytes it took: the receiver reads
those bytes exactly, on every feed.  The hypothesis on the ending keeps out
runs that were cut short by the end of the feed. -/
def Local (carry : E → Option B) (quiet : K → Prop)
    (m : Receiver E K ε α) : Prop :=
  ∀ (feed next : Feed E K) (a : α) (bytes : List B),
    quiet feed.ending → Carries carry feed.pending bytes →
    m.run feed = .ok (a, next) →
    ∃ items taken, feed = next.push items ∧ Carries carry items taken ∧
      Reads carry m taken a

section Local

variable {carry : E → Option B} {quiet : K → Prop}
  {m : Receiver E K ε α} {k : α → Receiver E K ε β}

theorem Local.pure (a : α) :
    Local carry quiet (pure a : Receiver E K ε α) := by
  intro feed next b bytes _ _ hrun
  obtain ⟨rfl, rfl⟩ := run_pure_eq_ok hrun
  exact ⟨[], [], rfl, carries_nil_iff.mpr rfl, Reads.pure b⟩

theorem Local.fail (e : ε) :
    Local carry quiet (throw e : Receiver E K ε α) := by
  intro feed next b bytes _ _ hrun
  rw [run_throw] at hrun
  contradiction

theorem Local.bind (hm : Local carry quiet m)
    (hk : ∀ a, Local carry quiet (k a)) :
    Local carry quiet (m >>= k) := by
  intro feed last b bytes hquiet hbytes hrun
  obtain ⟨a, next, hfirst, hsecond⟩ := run_bind_eq_ok hrun
  obtain ⟨first, front, rfl, hfront, hreadFront⟩ :=
    hm feed next a bytes hquiet hbytes hfirst
  obtain ⟨_, back, _, _, hback⟩ := hbytes.split
  obtain ⟨second, back', rfl, hback', hreadBack⟩ :=
    hk a next last b back (by simpa using hquiet) hback hsecond
  exact ⟨first ++ second, front ++ back', (push_append _ _ _).symm,
    hfront.append hback', hreadFront.bind hreadBack⟩

theorem Local.ite {p : Prop} [Decidable p] {other : Receiver E K ε α}
    (hthen : Local carry quiet m) (helse : Local carry quiet other) :
    Local carry quiet (if p then m else other) := by
  split
  · exact hthen
  · exact helse

theorem Local.of_reads_or_error
    (h : ∀ feed bytes, quiet feed.ending → Carries carry feed.pending bytes →
      (∃ front back a, bytes = front ++ back ∧ Reads carry m front a) ∨
        ∃ e, m.run feed = .error e) :
    Local carry quiet m := by
  intro feed next a bytes hquiet hbytes hrun
  rcases h feed bytes hquiet hbytes with
    ⟨front, back, a', rfl, hreads⟩ | ⟨e, herror⟩
  · obtain ⟨first, second, hsplit, hfirst, _⟩ := carries_append_iff.mp hbytes
    have hfeed := eq_push hsplit
    have hfront := hreads first ⟨second, feed.ending⟩ hfirst
    rw [← hfeed] at hfront
    obtain ⟨rfl, rfl⟩ := run_unique hfront hrun
    exact ⟨first, front, hfeed, hfirst, hreads⟩
  · rw [herror] at hrun
    contradiction

/-- A local receiver does not see by which items the bytes are carried. -/
theorem Local.carried {feed other next : Feed E K} {a : α} {bytes : List B}
    (hm : Local carry quiet m) (hquiet : quiet feed.ending)
    (hbytes : Carries carry feed.pending bytes)
    (hother : Carries carry other.pending bytes)
    (hrun : m.run feed = .ok (a, next)) :
    ∃ left back, m.run other = .ok (a, ⟨left, other.ending⟩) ∧
      Carries carry next.pending back ∧ Carries carry left back := by
  obtain ⟨items, taken, rfl, htaken, hreads⟩ :=
    hm feed next a bytes hquiet hbytes hrun
  obtain ⟨front, back, rfl, hfront, hback⟩ := hbytes.split
  obtain rfl := hfront.bytes_unique htaken
  obtain ⟨first, left, hpending, hfirst, hleft⟩ :=
    carries_append_iff.mp hother
  have hsame := hreads first ⟨left, other.ending⟩ hfirst
  rw [← eq_push hpending] at hsame
  exact ⟨left, back, hsame, hback, hleft⟩

end Local

/-- The receivers consume their parts one after another on this one feed. -/
inductive ConsumesEach (carry : E → Option B) :
    List (Receiver E K ε α) → List (List B) → List α →
      Feed E K → Feed E K → Prop
  | nil (feed : Feed E K) : ConsumesEach carry [] [] [] feed feed
  | cons {m : Receiver E K ε α} {part : List B} {a : α}
      {rest : List (Receiver E K ε α)} {parts : List (List B)}
      {values : List α} {items : List E} {next last : Feed E K} :
      Carries carry items part → m.run (next.push items) = .ok (a, next) →
      ConsumesEach carry rest parts values next last →
      ConsumesEach carry (m :: rest) (part :: parts) (a :: values)
        (next.push items) last

/-- What local receivers consume on one feed they read on every feed. -/
theorem ConsumesEach.readsEach {carry : E → Option B} {quiet : K → Prop}
    {ms : List (Receiver E K ε α)} {parts : List (List B)}
    {values : List α} {feed last : Feed E K} {bytes : List B}
    (h : ConsumesEach carry ms parts values feed last)
    (hlocal : ∀ m ∈ ms, Local carry quiet m)
    (hquiet : quiet feed.ending) (hbytes : Carries carry feed.pending bytes) :
    ReadsEach carry ms parts values := by
  induction h generalizing bytes with
  | nil => exact .nil
  | @cons m part a rest parts values items next last hpart hrun _ ih =>
      obtain ⟨items', taken, heq, htaken, hreads⟩ :=
        hlocal m List.mem_cons_self _ _ _ _ hquiet hbytes hrun
      have hitems : items = items' := push_left_injective heq
      subst hitems
      obtain ⟨_, back, _, _, hback⟩ := hbytes.split
      rw [hpart.bytes_unique htaken]
      exact .cons hreads
        (ih (fun other hmem => hlocal other (List.mem_cons_of_mem m hmem))
          (by simpa using hquiet) hback)

/-! ## Receivers that decide -/

/-- What a receiver makes of these bytes: it reads the front of them, it waits
for more, or it fails whatever comes behind them. -/
inductive Verdict (carry : E → Option B) (quiet : K → Prop)
    (wait : K → ε → Prop) (may : ε → Prop) (m : Receiver E K ε α) :
    List B → Prop
  | reads {front back : List B} {a : α} :
      Reads carry m front a →
      Verdict carry quiet wait may m (front ++ back)
  | waits {bytes : List B} :
      (∀ items ending, quiet ending → Carries carry items bytes →
        ∃ e, wait ending e ∧ m.run ⟨items, ending⟩ = .error e) →
      Verdict carry quiet wait may m bytes
  | fails {bytes : List B} {e : ε} : may e →
      (∀ items (feed : Feed E K), Carries carry items bytes →
        m.run (feed.push items) = .error e) →
      Verdict carry quiet wait may m bytes

def Decides (carry : E → Option B) (quiet : K → Prop)
    (wait : K → ε → Prop) (may : ε → Prop) (m : Receiver E K ε α) : Prop :=
  ∀ bytes, Verdict carry quiet wait may m bytes

section Decides

variable {carry : E → Option B} {quiet : K → Prop}
  {wait : K → ε → Prop} {may : ε → Prop} {m : Receiver E K ε α} {k : α → Receiver E K ε β}

theorem Decides.pure (a : α) :
    Decides carry quiet wait may (pure a : Receiver E K ε α) := by
  intro bytes
  have hreads : Verdict carry quiet wait may
      (Pure.pure a : Receiver E K ε α) ([] ++ bytes) :=
    .reads (Reads.pure a)
  exact hreads

theorem Decides.throw {e : ε} (he : may e) :
    Decides carry quiet wait may (throw e : Receiver E K ε α) := by
  intro bytes
  exact .fails he fun items feed _ => run_throw e _

theorem Decides.bind (hm : Decides carry quiet wait may m)
    (hk : ∀ a, Decides carry quiet wait may (k a)) :
    Decides carry quiet wait may (m >>= k) := by
  intro bytes
  cases hm bytes with
  | @reads front back a hreads =>
      cases hk a back with
      | @reads taken left b hmore =>
          rw [← List.append_assoc]
          exact .reads (hreads.bind hmore)
      | waits hwaits =>
          apply Verdict.waits
          intro items ending hquiet hitems
          obtain ⟨first, second, rfl, hfirst, hsecond⟩ :=
            carries_append_iff.mp hitems
          have hfront := hreads first ⟨second, ending⟩ hfirst
          rw [push] at hfront
          rw [run_bind_of_ok hfront]
          exact hwaits second ending hquiet hsecond
      | fails he hfails =>
          apply Verdict.fails he
          intro items feed hitems
          obtain ⟨first, second, rfl, hfirst, hsecond⟩ :=
            carries_append_iff.mp hitems
          rw [push_append, run_bind_of_ok (hreads first _ hfirst)]
          exact hfails second feed hsecond
  | waits hwaits =>
      apply Verdict.waits
      intro items ending hquiet hitems
      obtain ⟨e, hwait, hrun⟩ := hwaits items ending hquiet hitems
      exact ⟨e, hwait, run_bind_of_error hrun⟩
  | fails he hfails =>
      apply Verdict.fails he
      intro items feed hitems
      exact run_bind_of_error (hfails items feed hitems)

theorem Decides.ite {p : Prop} [Decidable p] {other : Receiver E K ε α}
    (hthen : Decides carry quiet wait may m)
    (helse : Decides carry quiet wait may other) :
    Decides carry quiet wait may (if p then m else other) := by
  split
  · exact hthen
  · exact helse

theorem Decides.weaken {wider : ε → Prop}
    (hm : Decides carry quiet wait may m) (h : ∀ e, may e → wider e) :
    Decides carry quiet wait wider m := by
  intro bytes
  cases hm bytes with
  | reads hreads => exact .reads hreads
  | waits hwaits => exact .waits hwaits
  | fails he hfails => exact .fails (h _ he) hfails

end Decides

end Feed
