import Redispp.Replies
import Mathlib.Data.List.ReduceOption

/-!
# Bulk and multi-bulk replies

Sessions of bulk replies read by `read_string`, and whole multi-bulk replies
read by `read_multi_bulk`.  Two branches leave bytes behind: `read_string`
returns on length zero before the line end behind the empty payload, and
`read_multi_bulk` returns at its first element that is not a string.  The main
results say for which replies neither makes a difference.
-/

namespace Redispp

open StateExcept Decimal CLibrary

/-! ## What `read_string` can return -/

theorem bulkResponse_empty_ne : Response.new .err ≠ bulkResponse (some []) := by
  intro h
  have htype := congrArg Response.mType h
  contradiction

theorem err_ne_ofList (l : List Buffer) :
    Response.new .err ≠ Response.ofList l := by
  intro h
  have htype := congrArg Response.mType h
  contradiction

theorem ofList_injective : Function.Injective Response.ofList := by
  intro l l' h
  exact congrArg Response.mArray h

theorem readString_cases {feed next : Stream} {resp : Response}
    (h : readString.run feed = .ok (resp, next)) :
    ∃ str after, getline.run feed = .ok (str, after) ∧
      (resp = .new .err ∧ next = after ∨
        ∃ s, resp = .ofString s ∧ toInt (atol str.tail) ≠ 0 ∧
          (readBody (toInt (atol str.tail))).run after = .ok (s, next)) := by
  unfold readString at h
  obtain ⟨str, after, hline, hrest⟩ := run_bind_eq_ok h
  refine ⟨str, after, hline, ?_⟩
  dsimp only at hrest
  split at hrest
  · split at hrest
    · exact Or.inl (run_pure_eq_ok hrest)
    · split at hrest
      · next hzero =>
          obtain ⟨s, last, hbody, hpure⟩ := run_bind_eq_ok hrest
          obtain ⟨rfl, rfl⟩ := run_pure_eq_ok hpure
          exact Or.inr ⟨s, Response.setBuffer_string s, hzero, hbody⟩
      · exact Or.inl (run_pure_eq_ok hrest)
  · exact Or.inl (run_pure_eq_ok hrest)

theorem readString_eq_ok {feed next : Stream} {resp : Response}
    (h : readString.run feed = .ok (resp, next)) :
    resp = .new .err ∨ ∃ s, resp = .ofString s := by
  obtain ⟨_, _, _, ⟨herr, _⟩ | ⟨s, hs, _⟩⟩ := readString_cases h
  · exact Or.inl herr
  · exact Or.inr ⟨s, hs⟩

/-- A body is no longer than its announced size, which leaves room for two
more bytes in an `int`. -/
theorem readBody_eq_ok {sz : ℤ} {feed next : Stream} {s : Buffer}
    (h : (readBody sz).run feed = .ok (s, next)) :
    sz + 2 ≤ INT_MAX ∧ (s.length : ℤ) ≤ sz := by
  unfold readBody at h
  split at h
  · contradiction
  · next hmax =>
      split at h
      · contradiction
      · obtain ⟨buf, after, _, hrest⟩ := run_bind_eq_ok h
        split at hrest
        · contradiction
        · next hsz =>
            obtain ⟨rfl, _⟩ := run_pure_eq_ok hrest
            rw [List.length_take]
            omega

theorem announced_of_readString_bulk {payload s : Buffer}
    {arrivals : List Arrival} {rest next : Stream}
    (harrivals : Delivers arrivals (encodeBulk (some payload)))
    (h : readString.run (rest.push arrivals) = .ok (.ofString s, next)) :
    toInt (saturate payload.length) ≠ 0 ∧
      toInt (saturate payload.length) + 2 ≤ INT_MAX ∧
      (s.length : ℤ) ≤ toInt (saturate payload.length) := by
  obtain ⟨first, second, rfl, hfirst, _⟩ := Feed.carries_append_iff.mp harrivals
  have hread := getline_reads_header (by decide) first (rest.push second) hfirst
  rw [← Feed.push_append] at hread
  obtain ⟨str, after, hline, ⟨herr, _⟩ | ⟨t, hs, hzero, hbody⟩⟩ :=
    readString_cases h
  · have htype := congrArg Response.mType herr
    contradiction
  · obtain rfl : s = t := congrArg Response.mStr hs
    obtain ⟨rfl, _⟩ := run_unique hread hline
    rw [atol_replyHeader_natCast] at hzero hbody
    exact ⟨hzero, readBody_eq_ok hbody⟩

theorem readString_bulk_eq_ok {payload : Buffer} {arrivals : List Arrival}
    {rest next : Stream}
    (harrivals : Delivers arrivals (encodeBulk (some payload)))
    (h : readString.run (rest.push arrivals) =
      .ok (.ofString payload, next)) :
    payload ≠ [] ∧ (payload.length : ℤ) + 2 ≤ INT_MAX := by
  obtain ⟨hzero, hmax, hlength⟩ := announced_of_readString_bulk harrivals h
  have hsaturate : saturate payload.length = payload.length := by
    unfold saturate LONG_MIN LONG_MAX
    unfold INT_MAX at hmax
    omega
  have hint : toInt payload.length = payload.length := by
    unfold INT_MAX at hmax
    exact toInt_of_mem (by unfold INT_MIN; omega) (by unfold INT_MAX; omega)
  rw [hsaturate, hint] at hmax hzero
  refine ⟨?_, hmax⟩
  rintro rfl
  exact hzero rfl

/-! ## Sessions of bulk replies -/

theorem readString_reads_of_ne {reply : Option Buffer} (hne : reply ≠ some [])
    (hmax : ∀ payload, reply = some payload →
      (payload.length : ℤ) + 2 ≤ INT_MAX) :
    Reads readString (encodeBulk reply) (bulkResponse reply) := by
  cases reply with
  | none => exact readString_reads_nil
  | some payload =>
      have hpayload : payload ≠ [] := by
        rintro rfl
        exact hne rfl
      exact readString_reads_bulk hpayload (hmax payload rfl)

/-- One `read_string` for each reply returns the replies in order and leaves
what follows them, exactly when none of them is the empty bulk. -/
theorem readStrings_bulk_iff {replies : List (Option Buffer)}
    {arrivals : List Arrival} {rest : Stream}
    (hmax : ∀ payload, some payload ∈ replies →
      (payload.length : ℤ) + 2 ≤ INT_MAX)
    (harrivals : Delivers arrivals (replies.map encodeBulk).flatten) :
    (Feed.inTurn (replies.map fun _ => readString)).run (rest.push arrivals) =
        .ok (replies.map bulkResponse, rest) ↔
      some [] ∉ replies := by
  induction replies generalizing arrivals with
  | nil =>
      rw [Feed.carries_nil_iff.mp harrivals]
      simp [Feed.inTurn]
  | cons reply replies ih =>
      obtain ⟨first, second, rfl, hfirst, hsecond⟩ :=
        Feed.carries_append_iff.mp harrivals
      have hmax' : ∀ payload, some payload ∈ replies →
          (payload.length : ℤ) + 2 ≤ INT_MAX :=
        fun payload hmem => hmax payload (List.mem_cons_of_mem reply hmem)
      rw [List.map_cons, List.map_cons, Feed.inTurn, Feed.push_append]
      by_cases hempty : reply = some []
      · subst hempty
        obtain ⟨header, terminator, rfl, hheader, _⟩ :=
          Feed.carries_append_iff.mp hfirst
        have hread := readString_reads_empty_header header
          ((rest.push second).push terminator) hheader
        rw [Feed.push_append, run_bind_of_ok hread]
        constructor
        · intro hrun
          obtain ⟨others, last, _, hpure⟩ := run_bind_eq_ok hrun
          have hvalues := (run_pure_eq_ok hpure).1
          rw [List.cons.injEq] at hvalues
          exact absurd hvalues.1.symm bulkResponse_empty_ne
        · intro hmem
          exact absurd List.mem_cons_self hmem
      · have hread := readString_reads_of_ne hempty
          (fun payload hpayload => hmax payload (by simp [hpayload]))
          first (rest.push second) hfirst
        have hmem : some [] ∉ reply :: replies ↔ some [] ∉ replies := by
          simp [Ne.symm hempty]
        rw [run_bind_of_ok hread, hmem, ← ih hmax' hsecond]
        constructor
        · intro hrun
          obtain ⟨others, last, htail, hpure⟩ := run_bind_eq_ok hrun
          obtain ⟨hvalues, rfl⟩ := run_pure_eq_ok hpure
          rw [htail, (List.cons.inj hvalues).2]
        · intro htail
          rw [run_bind_of_ok htail]
          rfl

theorem readStrings_bulk_framing :
    let replies := [none, some (bytes "$0\r\n")]
    (Feed.inTurn (replies.map fun _ => readString)).run
        ((streamOf (bytes "+OK\r\n")).push
          (arrivalsOf (replies.map encodeBulk).flatten)) =
        .ok (replies.map bulkResponse, streamOf (bytes "+OK\r\n")) ↔
      some [] ∉ replies := by
  apply readStrings_bulk_iff
  · intro payload hmem
    simp only [List.mem_cons, reduceCtorEq, Option.some.injEq,
      List.not_mem_nil, or_false, false_or] at hmem
    subst hmem
    decide
  · exact delivers_arrivalsOf _

/-- The line end behind an empty payload is taken for the next reply. -/
theorem readStrings_bulk_shifted :
    let replies := [some [], some (bytes "a")]
    let stream := streamOf (replies.map encodeBulk).flatten
    (Feed.inTurn (replies.map fun _ => readString)).run stream =
        .ok ([.new .err, .new .err],
          streamOf (encodeBulk (some (bytes "a")))) ∧
      (Feed.inTurn (replies.map fun _ => readString)).run stream ≠
        .ok (replies.map bulkResponse, streamOf []) := by
  decide

/-! ## The loop of `read_multi_bulk` -/

theorem multiBulkLoop_reads {payloads : List Buffer} (front : List Buffer)
    (more : ℕ) {back : List Byte} {resp : Response}
    (hpayloads : ∀ payload ∈ payloads, payload ≠ [] ∧
      (payload.length : ℤ) + 2 ≤ INT_MAX)
    (hback : Reads (multiBulkLoop more (.ofList (front ++ payloads))) back
      resp) :
    Reads (multiBulkLoop (payloads.length + more) (.ofList front))
      ((payloads.map fun payload => encodeBulk (some payload)).flatten ++ back)
      resp := by
  induction payloads generalizing front with
  | nil => simpa using hback
  | cons payload payloads ih =>
      obtain ⟨hne, hmax⟩ := hpayloads payload List.mem_cons_self
      have hcount : (payload :: payloads).length + more =
          payloads.length + more + 1 := by
        simp only [List.length_cons]
        omega
      have htail := ih (front ++ [payload])
        (fun other hmem => hpayloads other (List.mem_cons_of_mem payload hmem))
        (by simpa using hback)
      rw [hcount, multiBulkLoop, List.map_cons, List.flatten_cons,
        List.append_assoc]
      refine (readString_reads_bulk hne hmax).bind ?_
      rw [if_neg (by simp), Response.mStr_ofString, Response.addString_ofList]
      exact htail

theorem multiBulkLoop_reads_stop {stop : List Byte} (left : ℕ)
    (ret : Response) (hstop : Reads readString stop (.new .err)) :
    Reads (multiBulkLoop (left + 1) ret) stop (.new .err) := by
  rw [multiBulkLoop]
  apply hstop.bind_pure
  rw [if_pos (by simp)]

theorem multiBulkLoop_eq_ok {left : ℕ} {front : List Buffer}
    {feed next : Stream} {resp : Response}
    (h : (multiBulkLoop left (.ofList front)).run feed = .ok (resp, next)) :
    resp = .new .err ∨
      ∃ strings, strings.length = left ∧
        resp = .ofList (front ++ strings) := by
  induction left generalizing front feed with
  | zero =>
      obtain ⟨rfl, _⟩ := run_pure_eq_ok h
      exact Or.inr ⟨[], rfl, by simp⟩
  | succ left ih =>
      rw [multiBulkLoop] at h
      obtain ⟨s, after, hread, hrest⟩ := run_bind_eq_ok h
      rcases readString_eq_ok hread with rfl | ⟨payload, rfl⟩
      · rw [if_pos (by simp)] at hrest
        exact Or.inl (run_pure_eq_ok hrest).1
      · rw [if_neg (by simp), Response.mStr_ofString,
          Response.addString_ofList] at hrest
        rcases ih hrest with herr | ⟨strings, hlength, hresp⟩
        · exact Or.inl herr
        · exact Or.inr ⟨payload :: strings, by simp [hlength], by simp [hresp]⟩

/-- A loop that returns exactly the payloads has met no empty and no oversized
one, and was given their number. -/
theorem multiBulkLoop_payloads {left : ℕ} {front : List Buffer}
    (payloads : List Buffer) {arrivals : List Arrival} {rest next : Stream}
    (harrivals : Delivers arrivals
      (payloads.map fun payload => encodeBulk (some payload)).flatten)
    (h : (multiBulkLoop left (.ofList front)).run (rest.push arrivals) =
      .ok (.ofList (front ++ payloads), next)) :
    left = payloads.length ∧ ∀ payload ∈ payloads, payload ≠ [] ∧
      (payload.length : ℤ) + 2 ≤ INT_MAX := by
  induction payloads generalizing left front arrivals with
  | nil =>
      rcases multiBulkLoop_eq_ok h with herr | ⟨strings, hlength, hresp⟩
      · exact absurd herr.symm (err_ne_ofList _)
      · have hlists := ofList_injective hresp
        have hnil : strings = [] := by simpa using hlists
        exact ⟨by simp [← hlength, hnil], by simp⟩
  | cons payload payloads ih =>
      obtain ⟨first, second, rfl, hfirst, hsecond⟩ :=
        Feed.carries_append_iff.mp harrivals
      cases left with
      | zero =>
          have hlists := ofList_injective (run_pure_eq_ok h).1
          simp at hlists
      | succ left =>
          rw [multiBulkLoop, Feed.push_append] at h
          obtain ⟨s, after, hread, hrest⟩ := run_bind_eq_ok h
          rcases readString_eq_ok hread with rfl | ⟨read, rfl⟩
          · rw [if_pos (by simp)] at hrest
            exact absurd (run_pure_eq_ok hrest).1.symm (err_ne_ofList _)
          · rw [if_neg (by simp), Response.mStr_ofString,
              Response.addString_ofList] at hrest
            have hsame : read = payload := by
              rcases multiBulkLoop_eq_ok hrest with herr | ⟨strings, _, hresp⟩
              · exact absurd herr.symm (err_ne_ofList _)
              · have hlists := ofList_injective hresp
                simp only [List.append_assoc, List.append_cancel_left_eq,
                  List.singleton_append, List.cons.injEq] at hlists
                exact hlists.1.symm
            subst hsame
            have hgood := readString_bulk_eq_ok hfirst hread
            have hexact := readString_reads_bulk hgood.1 hgood.2 first
              (rest.push second) hfirst
            obtain ⟨_, rfl⟩ := run_unique hexact hread
            have hlist : front ++ read :: payloads =
                (front ++ [read]) ++ payloads := by
              simp
            rw [hlist] at hrest
            obtain ⟨hleft, hpayloads⟩ := ih hsecond hrest
            refine ⟨by simp [hleft], ?_⟩
            intro other hmem
            rcases List.mem_cons.mp hmem with rfl | htail
            · exact hgood
            · exact hpayloads other htail

/-! ## Whole multi-bulk replies -/

/-- What `read_multi_bulk` is to return: the payloads, or an error if one of
them is missing. -/
def multiBulkResponse (elements : List (Option Buffer)) : Response :=
  if none ∈ elements then .new .err
  else .ofList (elements.filterMap id)

/-- What is made of the elements where an empty payload counts as missing. -/
def listAnswer (make : List Buffer → Response)
    (elements : List (Option Buffer)) : Response :=
  if none ∈ elements ∨ some [] ∈ elements then .new .err
  else make elements.reduceOption

/-- The number of elements is a `long`, and every payload fits into a buffer
whose size is an `int`, with its line end. -/
structure Fits (elements : List (Option Buffer)) : Prop where
  count : (elements.length : ℤ) ≤ LONG_MAX
  payloads : ∀ payload, some payload ∈ elements →
    (payload.length : ℤ) + 2 ≤ INT_MAX

theorem readMultiBulk_run {count : ℕ} {header : List Arrival} {rest : Stream}
    (hheader : Delivers header (replyHeader '*' count)) :
    readMultiBulk.run (rest.push header) =
      (multiBulkLoop (saturate count).toNat (.ofList [])).run rest := by
  have hread := getline_reads_header (by decide) header rest hheader
  unfold readMultiBulk
  rw [run_bind_of_ok hread, head_replyHeader, if_neg (by simp),
    atol_replyHeader_natCast]
  dsimp only
  split
  · next hcount =>
      have hzero : (saturate count).toNat = 0 := by omega
      rw [hzero]
      rfl
  · rfl

theorem split_elements (elements : List (Option Buffer)) :
    ∃ payloads : List Buffer, (∀ payload ∈ payloads, payload ≠ []) ∧
      (elements = payloads.map some ∨
        ∃ stop back, elements = payloads.map some ++ stop :: back ∧
          (stop = none ∨ stop = some [])) := by
  induction elements with
  | nil => exact ⟨[], by simp, Or.inl rfl⟩
  | cons element elements ih =>
      by_cases hstop : element = none ∨ element = some []
      · exact ⟨[], by simp, Or.inr ⟨element, elements, rfl, hstop⟩⟩
      · obtain ⟨payload, rfl⟩ : ∃ payload, element = some payload := by
          cases element with
          | none => simp at hstop
          | some payload => exact ⟨payload, rfl⟩
        obtain ⟨payloads, hpayloads, hsplit⟩ := ih
        refine ⟨payload :: payloads, ?_, ?_⟩
        · intro other hmem
          rcases List.mem_cons.mp hmem with rfl | htail
          · simpa using hstop
          · exact hpayloads other htail
        · rcases hsplit with rfl | ⟨stop, back, rfl, hkind⟩
          · exact Or.inl rfl
          · exact Or.inr ⟨stop, back, rfl, hkind⟩

theorem fits_payloads {payloads : List Buffer}
    {elements : List (Option Buffer)} (h : Fits elements)
    (hfront : payloads.map some <+: elements)
    (hne : ∀ payload ∈ payloads, payload ≠ []) :
    ∀ payload ∈ payloads, payload ≠ [] ∧
      (payload.length : ℤ) + 2 ≤ INT_MAX := by
  intro payload hmem
  have helement : some payload ∈ elements :=
    hfront.subset (List.mem_map_of_mem hmem)
  exact ⟨hne payload hmem, h.payloads payload helement⟩

theorem multiBulkLoop_reads_payloads {payloads : List Buffer}
    (hpayloads : ∀ payload ∈ payloads, payload ≠ [] ∧
      (payload.length : ℤ) + 2 ≤ INT_MAX) :
    Reads (multiBulkLoop payloads.length (.ofList []))
      (payloads.map fun payload => encodeBulk (some payload)).flatten
      (.ofList payloads) := by
  have hend : Reads (multiBulkLoop 0 (.ofList ([] ++ payloads))) []
      (.ofList payloads) := Feed.Reads.pure _
  simpa using multiBulkLoop_reads [] 0 hpayloads hend

/-- The run that meets an element it does not take as a string leaves all that
follows what `read_string` took of it. -/
theorem run_multiBulkLoop_stop {payloads : List Buffer} (left : ℕ)
    {stop back : List Byte} {arrivals : List Arrival} (rest : Stream)
    (hpayloads : ∀ payload ∈ payloads, payload ≠ [] ∧
      (payload.length : ℤ) + 2 ≤ INT_MAX)
    (hstop : Reads readString stop (.new .err))
    (harrivals : Delivers arrivals
      ((payloads.map fun payload => encodeBulk (some payload)).flatten ++
        (stop ++ back))) :
    ∃ unread, Delivers unread back ∧
      (multiBulkLoop (payloads.length + (left + 1)) (.ofList [])).run
        (rest.push arrivals) = .ok (.new .err, rest.push unread) := by
  rw [← List.append_assoc] at harrivals
  obtain ⟨taken, unread, rfl, htaken, hunread⟩ :=
    Feed.carries_append_iff.mp harrivals
  have hreads := multiBulkLoop_reads [] (left + 1) hpayloads
    (multiBulkLoop_reads_stop left _ hstop)
  rw [Feed.push_append]
  exact ⟨unread, hunread, hreads taken (rest.push unread) htaken⟩

theorem push_eq_self_iff {unread : List Arrival} {back : List Byte}
    {rest : Stream} (hunread : Delivers unread back) :
    rest.push unread = rest ↔ back = [] := by
  constructor
  · intro h
    have hpush : rest.push unread = rest.push [] := h
    have hnil : unread = [] := Feed.push_left_injective hpush
    simpa [hnil] using hunread.length_eq.symm
  · rintro rfl
    rw [Feed.carries_nil_iff.mp hunread, Feed.push_nil]

theorem encodeBulk_ne_nil (element : Option Buffer) :
    encodeBulk element ≠ [] := by
  cases element <;> simp [encodeBulk, replyHeader]

theorem encodeBulks_eq_nil_iff {elements : List (Option Buffer)} :
    (elements.map encodeBulk).flatten = [] ↔ elements = [] := by
  cases elements with
  | nil => simp
  | cons element elements => simp [encodeBulk_ne_nil]

theorem exists_payloads {elements : List (Option Buffer)}
    (h : none ∉ elements) :
    ∃ payloads : List Buffer, elements = payloads.map some := by
  induction elements with
  | nil => exact ⟨[], rfl⟩
  | cons element elements ih =>
      cases element with
      | none => simp at h
      | some payload =>
          obtain ⟨payloads, rfl⟩ := ih (by simpa using h)
          exact ⟨payload :: payloads, rfl⟩

theorem multiBulkLoop_whole_iff {elements : List (Option Buffer)}
    {bulks : List Arrival} (rest : Stream) (hfits : Fits elements)
    (hbulks : Delivers bulks (elements.map encodeBulk).flatten) :
    (multiBulkLoop elements.length (.ofList [])).run (rest.push bulks) =
        .ok (multiBulkResponse elements, rest) ↔
      some [] ∉ elements ∧ none ∉ elements.dropLast := by
  obtain ⟨payloads, hne, rfl | ⟨stop, back, rfl, hstop⟩⟩ :=
    split_elements elements
  · have hpayloads := fits_payloads hfits List.prefix_rfl hne
    rw [List.map_map] at hbulks
    have hrun := multiBulkLoop_reads_payloads hpayloads bulks rest hbulks
    rw [List.length_map, hrun]
    have hempty : [] ∉ payloads := fun hmem => hne [] hmem rfl
    have hlast : none ∉ (payloads.map some).dropLast := by
      intro hmem
      have := List.mem_of_mem_dropLast hmem
      simp at this
    simp [multiBulkResponse, hempty, hlast]
  · have hpayloads := fits_payloads hfits (List.prefix_append _ _) hne
    rw [List.map_append, List.flatten_append, List.map_map, List.map_cons,
      List.flatten_cons] at hbulks
    have hlength : (payloads.map some ++ stop :: back).length =
        payloads.length + (back.length + 1) := by
      simp
    have hdrop : (payloads.map some ++ stop :: back).dropLast =
        payloads.map some ++ (stop :: back).dropLast := by
      rw [List.dropLast_append_of_ne_nil (by simp)]
    rw [hlength, hdrop]
    rcases hstop with rfl | rfl
    · obtain ⟨unread, hunread, hrun⟩ := run_multiBulkLoop_stop back.length
        rest hpayloads readString_reads_nil hbulks
      have hresp : multiBulkResponse (payloads.map some ++ none :: back) =
          .new .err := by
        simp [multiBulkResponse]
      have hempty : [] ∉ payloads := fun hmem => hne [] hmem rfl
      rw [hrun, hresp, Except.ok.injEq, Prod.mk.injEq,
        push_eq_self_iff hunread, encodeBulks_eq_nil_iff]
      cases back with
      | nil => simp [hempty]
      | cons element back => simp
    · rw [encodeBulk, List.append_assoc, List.append_assoc] at hbulks
      obtain ⟨unread, hunread, hrun⟩ := run_multiBulkLoop_stop back.length
        rest hpayloads readString_reads_empty_header hbulks
      rw [hrun, Except.ok.injEq, Prod.mk.injEq, push_eq_self_iff hunread]
      simp

theorem fits_of_payloads {payloads : List Buffer} {bulks : List Arrival}
    {rest next : Stream}
    (hbulks : Delivers bulks ((payloads.map some).map encodeBulk).flatten)
    (hrun : (multiBulkLoop (saturate payloads.length).toNat (.ofList [])).run
      (rest.push bulks) = .ok (.ofList payloads, next)) :
    Fits (payloads.map some) ∧ [] ∉ payloads := by
  rw [List.map_map] at hbulks
  obtain ⟨hcount, hpayloads⟩ := multiBulkLoop_payloads payloads hbulks hrun
  have hmax : ((payloads.map some).length : ℤ) ≤ LONG_MAX := by
    unfold saturate LONG_MIN LONG_MAX at *
    rw [List.length_map]
    omega
  refine ⟨⟨hmax, ?_⟩, ?_⟩
  · intro payload hmem
    exact (hpayloads payload (by simpa using hmem)).2
  · intro hmem
    exact (hpayloads [] hmem).1 rfl

theorem readMultiBulk_reads_payloads {payloads : List Buffer}
    (hfits : Fits (payloads.map some)) (hempty : [] ∉ payloads) :
    Reads readMultiBulk (encodeMultiBulk (payloads.map some))
      (.ofList payloads) := by
  intro arrivals rest harrivals
  obtain ⟨header, bulks, rfl, hheader, hbulks⟩ :=
    Feed.carries_append_iff.mp harrivals
  have hne : ∀ payload ∈ payloads, payload ≠ [] := by
    rintro payload hmem rfl
    exact hempty hmem
  have hcount : (saturate ((payloads.map some).length : ℕ)).toNat =
      payloads.length := by
    rw [saturate_of_mem (by unfold LONG_MIN; omega) hfits.count,
      Int.toNat_natCast, List.length_map]
  rw [List.map_map] at hbulks
  rw [Feed.push_append, readMultiBulk_run hheader, hcount]
  exact multiBulkLoop_reads_payloads
    (fits_payloads hfits List.prefix_rfl hne) bulks rest hbulks

/-- A multi-bulk reply is taken whole, and answered as it should be, exactly
when no element is the empty bulk and none before the last is missing.  This
is for elements that fit; without missing elements it is also necessary that
they do. -/
theorem readMultiBulk_whole_iff {elements : List (Option Buffer)}
    {arrivals : List Arrival} {rest : Stream}
    (harrivals : Delivers arrivals (encodeMultiBulk elements)) :
    (Fits elements →
      (readMultiBulk.run (rest.push arrivals) =
          .ok (multiBulkResponse elements, rest) ↔
        some [] ∉ elements ∧ none ∉ elements.dropLast)) ∧
      (none ∉ elements →
        (readMultiBulk.run (rest.push arrivals) =
            .ok (multiBulkResponse elements, rest) ↔
          Fits elements ∧ some [] ∉ elements)) := by
  obtain ⟨header, bulks, rfl, hheader, hbulks⟩ :=
    Feed.carries_append_iff.mp harrivals
  rw [Feed.push_append, readMultiBulk_run hheader]
  have hfit : Fits elements →
      ((multiBulkLoop (saturate elements.length).toNat (.ofList [])).run
          (rest.push bulks) = .ok (multiBulkResponse elements, rest) ↔
        some [] ∉ elements ∧ none ∉ elements.dropLast) := by
    intro hfits
    have hlow : LONG_MIN ≤ elements.length := by
      unfold LONG_MIN
      omega
    rw [saturate_of_mem hlow hfits.count, Int.toNat_natCast]
    exact multiBulkLoop_whole_iff rest hfits hbulks
  refine ⟨hfit, ?_⟩
  intro hpresent
  constructor
  · intro hrun
    obtain ⟨payloads, rfl⟩ := exists_payloads hpresent
    have hresp : multiBulkResponse (payloads.map some) = .ofList payloads := by
      simp [multiBulkResponse]
    rw [List.length_map, hresp] at hrun
    simpa using fits_of_payloads hbulks hrun
  · rintro ⟨hfits, hempty⟩
    refine (hfit hfits).mpr ⟨hempty, ?_⟩
    intro hmem
    exact hpresent (List.mem_of_mem_dropLast hmem)

theorem readMultiBulk_whole_last :
    let elements := [some (bytes "a"), none]
    let stream := (streamOf []).push (arrivalsOf (encodeMultiBulk elements))
    (Fits elements →
      (readMultiBulk.run stream =
          .ok (multiBulkResponse elements, streamOf []) ↔
        some [] ∉ elements ∧ none ∉ elements.dropLast)) ∧
      (none ∉ elements →
        (readMultiBulk.run stream =
            .ok (multiBulkResponse elements, streamOf []) ↔
          Fits elements ∧ some [] ∉ elements)) :=
  readMultiBulk_whole_iff (delivers_arrivalsOf _)

theorem readMultiBulk_cut_short :
    let elements := [none, some (bytes "a")]
    let stream := streamOf (encodeMultiBulk elements)
    readMultiBulk.run stream =
        .ok (.new .err, streamOf (encodeBulk (some (bytes "a")))) ∧
      readMultiBulk.run stream ≠
        .ok (multiBulkResponse elements, streamOf []) := by
  decide

end Redispp
