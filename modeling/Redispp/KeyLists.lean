import Redispp.MgetPairing

/-!
# Key lists left behind

Every MGET that waits for its reply has one key list in `m_mget_keys` and one
reader in `m_readers`.  This file counts both over whole runs.  A reader takes
its list only from a reply that begins with `*`, and `discard` drops readers
without their lists; what these two leave behind stays for good, so the counts
agree at the end of a run exactly when neither happened in it.
-/

namespace Redispp

open StateExcept CLibrary Runs

/-- Whether the next line begins a multi-bulk reply. -/
def announcesList (stream : Stream) : Bool :=
  match getline.run stream with
  | .ok (str, _) => str.head? = some (ascii '*')
  | .error _ => false

/-- Each `read_multi_string` finds a multi-bulk reply when its turn comes. -/
def Answered : List ResponseReader → List (List Buffer) → Stream → Prop
  | [], _, _ => True
  | reader :: rest, keys, stream =>
      (reader = .readMultiString → announcesList stream = true) ∧
        ∀ resp left next, (reader.call keys).run stream =
            .ok ((resp, left), next) → Answered rest left next

theorem readMultiString_announced {keys left : List (List Buffer)}
    {stream next : Stream} {resp : Response}
    (h : (readMultiString keys).run stream = .ok ((resp, left), next)) :
    left = if announcesList stream then keys.dropLast else keys := by
  obtain ⟨str, after, hline, rfl⟩ := readMultiString_left h
  simp [announcesList, hline]

namespace Client

def waiting (c : Client) : ℕ :=
  c.mReaders.count .readMultiString

/-- From `c` to `d` the surplus of key lists stays, or grows unless `spared`. -/
structure Keeps (c d : Client) (spared : Prop) : Prop where
  grows : c.mMgetKeys.length + d.waiting ≤ d.mMgetKeys.length + c.waiting
  equal_iff :
    d.mMgetKeys.length + c.waiting = c.mMgetKeys.length + d.waiting ↔ spared

theorem Keeps.of_eq {c d : Client} {spared : Prop} (hspared : spared)
    (h : d.mMgetKeys.length + c.waiting = c.mMgetKeys.length + d.waiting) :
    Keeps c d spared :=
  ⟨h.ge, ⟨fun _ => hspared, fun _ => h⟩⟩

theorem Keeps.of_same {c d : Client} {spared : Prop} (hspared : spared)
    (hkeys : d.mMgetKeys = c.mMgetKeys) (hreaders : d.mReaders = c.mReaders) :
    Keeps c d spared := by
  apply Keeps.of_eq hspared
  rw [hkeys, waiting, waiting, hreaders]

theorem call_keys {reader : ResponseReader} {c d : Client} {resp : Response}
    (hcount : [reader].count .readMultiString ≤ c.mMgetKeys.length)
    (h : (call reader).run c = .ok (resp, d)) :
    c.mMgetKeys.length ≤
        d.mMgetKeys.length + [reader].count .readMultiString ∧
      (d.mMgetKeys.length + [reader].count .readMultiString =
          c.mMgetKeys.length ↔
        (reader = .readMultiString → announcesList c.input = true)) := by
  cases reader with
  | stream reader => simp [call_stream_keys h]
  | readMultiString =>
      rw [List.count_singleton_self] at hcount ⊢
      have hleft := readMultiString_announced (run_call_reader h).1
      cases hlist : announcesList c.input with
      | true =>
          rw [hlist, if_pos rfl] at hleft
          have hlength : d.mMgetKeys.length + 1 = c.mMgetKeys.length := by
            rw [hleft, List.length_dropLast]
            omega
          simp [hlength]
      | false =>
          rw [hlist, if_neg (by simp)] at hleft
          simp [hleft]

theorem answered_cons_iff {reader : ResponseReader}
    {readers : List ResponseReader} {keys left : List (List Buffer)}
    {stream next : Stream} {resp : Response}
    (h : (reader.call keys).run stream = .ok ((resp, left), next)) :
    Answered (reader :: readers) keys stream ↔
      (reader = .readMultiString → announcesList stream = true) ∧
        Answered readers left next := by
  rw [Answered]
  refine and_congr_right fun _ => ⟨fun hall => hall _ _ _ h, ?_⟩
  intro hnext other left' input hother
  obtain ⟨hresult, rfl⟩ := run_unique h hother
  obtain ⟨_, rfl⟩ := Prod.mk.inj hresult
  exact hnext

theorem readBack_keys {readers : List ResponseReader} {c d : Client}
    {responses : List Response}
    (hcount : readers.count .readMultiString ≤ c.mMgetKeys.length)
    (h : (readBack readers).run c = .ok (responses, d)) :
    c.mMgetKeys.length ≤
        d.mMgetKeys.length + readers.count .readMultiString ∧
      (d.mMgetKeys.length + readers.count .readMultiString =
          c.mMgetKeys.length ↔
        Answered readers c.mMgetKeys c.input) := by
  induction readers generalizing c d responses with
  | nil =>
      obtain ⟨_, rfl⟩ := run_pure_eq_ok h
      simp [Answered]
  | cons reader readers ih =>
      rw [readBack] at h
      obtain ⟨resp, next, hcall, hrest⟩ := run_bind_eq_ok h
      obtain ⟨ret, last, hback, hpure⟩ := run_bind_eq_ok hrest
      obtain ⟨_, rfl⟩ := run_pure_eq_ok hpure
      have hsplit : (reader :: readers).count .readMultiString =
          [reader].count .readMultiString +
            readers.count .readMultiString := by
        rw [← List.count_append, List.singleton_append]
      rw [hsplit] at hcount ⊢
      obtain ⟨hgrows, hequal⟩ := call_keys (by omega) hcall
      obtain ⟨hgrows', hequal'⟩ := ih (by omega) hback
      refine ⟨by omega, ?_⟩
      rw [answered_cons_iff (run_call_reader hcall).1, ← hequal, ← hequal']
      omega

/-! ## The surplus over a call -/

/-- What a call must not meet: a reader of MGET that finds no multi-bulk
reply, or a `discard` that drops one. -/
def Spares (c : Client) : Stream × Call → Prop
  | (stream, .query (.mget _)) =>
      c.mMulti = false → c.mPipeline = false → announcesList stream = true
  | (stream, .exec) =>
      (c.mMulti = true → ∀ d, execHeader.run { c with input := stream } =
          .ok (true, d) → Answered c.mReaders c.mMgetKeys d.input) ∧
        (c.mMulti = false → c.mPipeline = true →
          Answered c.mReaders c.mMgetKeys stream)
  | (_, .discard) => .readMultiString ∉ c.mReaders
  | _ => True

theorem Query.count_reader (query : Query) :
    [query.reader].count .readMultiString = query.keys.length := by
  simpa using Query.length_keys [query]

/-- A command queued with its reader brings its own key list. -/
theorem queued_keeps {query : Query} {c d : Client} {spared : Prop}
    (hspared : spared) (hkeys : d.mMgetKeys = c.mMgetKeys ++ query.keys)
    (hreaders : d.mReaders = c.mReaders ++ [query.reader]) :
    Keeps c d spared := by
  apply Keeps.of_eq hspared
  rw [waiting, waiting, hkeys, hreaders, List.count_append,
    Query.count_reader, List.length_append]
  omega

theorem query_keeps {query : Query} {c d : Client} {resp : Response}
    (hrun : query.perform.run c = .ok (resp, d)) :
    Keeps c d (query.reader = .readMultiString → c.mMulti = false →
      c.mPipeline = false → announcesList c.input = true) := by
  rw [query.run_perform] at hrun
  cases hpipeline : c.mPipeline with
  | true =>
      have hqueued := run_run_pipeline
        (c := { c with mMgetKeys := c.mMgetKeys ++ query.keys })
        hpipeline query.cmd query.reader
      obtain ⟨_, rfl⟩ := run_unique hqueued hrun
      exact queued_keeps (by simp) rfl rfl
  | false =>
      cases hmulti : c.mMulti with
      | true =>
          rw [run_run_multi (by exact hpipeline) (by exact hmulti)] at hrun
          obtain ⟨input, _, rfl⟩ := run_receive_eq_ok hrun
          exact queued_keeps (by simp) rfl rfl
      | false =>
          rw [run_run_normal (by exact hpipeline) (by exact hmulti)] at hrun
          have hcount := Query.count_reader query
          obtain ⟨hgrows, hequal⟩ := call_keys (by simp [hcount]) hrun
          have hreaders : d.mReaders = c.mReaders := by
            rw [(run_call_reader hrun).2]
          simp only [hcount, List.length_append] at hgrows hequal
          refine ⟨?_, ?_⟩
          · rw [waiting, waiting, hreaders]
            omega
          · rw [waiting, waiting, hreaders]
            simp only [forall_const]
            rw [← hequal]
            omega

theorem multi_keeps {c d : Client} {resp : Response}
    (hrun : multi.run c = .ok (resp, d)) : Keeps c d True := by
  by_cases hopen : (c.mMulti || c.mPipeline) = true
  · obtain ⟨_, rfl⟩ := run_unique (run_multi_open hopen) hrun
    exact Keeps.of_same trivial rfl rfl
  · rw [multi, run_get_bind, if_neg hopen] at hrun
    simp only [Bool.or_eq_true, not_or, Bool.not_eq_true] at hopen
    obtain ⟨ret, next, hsend, hrest⟩ := run_bind_eq_ok hrun
    obtain ⟨input, rfl⟩ := run_status_eq_ok hopen.1 hopen.2 hsend
    rw [run_modify_bind] at hrest
    obtain ⟨_, rfl⟩ := run_pure_eq_ok hrest
    exact Keeps.of_same trivial rfl rfl

theorem pipeline_keeps {c d : Client} {entered : Bool}
    (hrun : pipeline.run c = .ok (entered, d)) : Keeps c d True := by
  by_cases hopen : (c.mMulti || c.mPipeline) = true
  · obtain ⟨_, rfl⟩ := run_unique (run_pipeline_open hopen) hrun
    exact Keeps.of_same trivial rfl rfl
  · simp only [Bool.or_eq_true, not_or, Bool.not_eq_true] at hopen
    have hentered := run_pipeline_normal hopen.1 hopen.2
    obtain ⟨_, rfl⟩ := run_unique hentered hrun
    exact Keeps.of_same trivial rfl rfl

theorem discard_keeps {c d : Client} {resp : Response}
    (hrun : discard.run c = .ok (resp, d)) :
    Keeps c d (.readMultiString ∉ c.mReaders) := by
  rw [discard, run_modify_bind] at hrun
  obtain ⟨input, rfl⟩ := run_status_eq_ok rfl rfl hrun
  rw [← List.count_eq_zero]
  refine ⟨?_, ?_⟩
  · simp [waiting]
  · simp [waiting]

/-- All readers run and are dropped. -/
theorem batch_keeps {c next d : Client} {responses : List Response}
    {spared : Prop} (hcount : c.waiting ≤ c.mMgetKeys.length)
    (hback : (readBack c.mReaders).run next = .ok (responses, d))
    (hkeys : next.mMgetKeys = c.mMgetKeys) {last : Client}
    (hlast : last.mMgetKeys = d.mMgetKeys) (hreaders : last.mReaders = [])
    (hspared : Answered c.mReaders c.mMgetKeys next.input ↔ spared) :
    Keeps c last spared := by
  rw [waiting, ← hkeys] at hcount
  obtain ⟨hgrows, hequal⟩ := readBack_keys hcount hback
  rw [hkeys] at hgrows hequal
  have hnone : last.waiting = 0 := by simp [waiting, hreaders]
  refine ⟨?_, ?_⟩
  · rw [hnone, hlast, waiting]
    omega
  · rw [hnone, hlast, waiting, ← hspared, ← hequal]
    omega

theorem execHeader_frame {c d : Client} {found : Bool}
    (hrun : execHeader.run c = .ok (found, d)) :
    d.mMgetKeys = c.mMgetKeys ∧ d.mReaders = c.mReaders := by
  rw [execHeader, run_bind_of_ok (run_send _)] at hrun
  obtain ⟨str, after, hline, hcheck⟩ := run_bind_eq_ok hrun
  obtain ⟨input, _, rfl⟩ := run_receive_eq_ok hline
  rw [run_get_bind] at hcheck
  obtain ⟨_, rfl⟩ := run_pure_eq_ok hcheck
  exact ⟨rfl, rfl⟩

theorem execMulti_keeps {c d : Client} {responses : List Response}
    (hcount : c.waiting ≤ c.mMgetKeys.length)
    (hrun : execMulti.run c = .ok (responses, d)) :
    Keeps c d (∀ next, execHeader.run c = .ok (true, next) →
      Answered c.mReaders c.mMgetKeys next.input) := by
  rw [execMulti] at hrun
  obtain ⟨found, next, hheader, hrest⟩ := run_bind_eq_ok hrun
  obtain ⟨hkeys, hreaders⟩ := execHeader_frame hheader
  cases found with
  | false =>
      rw [if_pos rfl] at hrest
      obtain ⟨_, rfl⟩ := run_pure_eq_ok hrest
      refine Keeps.of_same ?_ hkeys hreaders
      intro other hother
      have hfound := (run_unique hheader hother).1
      contradiction
  | true =>
      rw [if_neg (by simp), run_get_bind, hreaders] at hrest
      obtain ⟨ret, last, hback, hclean⟩ := run_bind_eq_ok hrest
      rw [run_modify_bind] at hclean
      obtain ⟨_, rfl⟩ := run_pure_eq_ok hclean
      refine batch_keeps hcount hback hkeys rfl rfl ⟨?_, fun h => h _ hheader⟩
      intro hanswered other hother
      rw [← (run_unique hheader hother).2]
      exact hanswered

theorem execPipeline_keeps {c d : Client} {responses : List Response}
    (hcount : c.waiting ≤ c.mMgetKeys.length)
    (hrun : execPipeline.run c = .ok (responses, d)) :
    Keeps c d (Answered c.mReaders c.mMgetKeys c.input) := by
  rw [execPipeline, run_get_bind, run_bind_of_ok (run_write _)] at hrun
  obtain ⟨ret, last, hback, hclean⟩ := run_bind_eq_ok hrun
  rw [run_modify_bind] at hclean
  obtain ⟨_, rfl⟩ := run_pure_eq_ok hclean
  exact batch_keeps hcount hback rfl rfl rfl Iff.rfl

theorem exec_keeps {c d : Client} {responses : List Response}
    (hcount : c.waiting ≤ c.mMgetKeys.length)
    (hrun : exec.run c = .ok (responses, d)) :
    Keeps c d
      ((c.mMulti = true → ∀ next, execHeader.run c = .ok (true, next) →
          Answered c.mReaders c.mMgetKeys next.input) ∧
        (c.mMulti = false → c.mPipeline = true →
          Answered c.mReaders c.mMgetKeys c.input)) := by
  cases hmulti : c.mMulti with
  | true =>
      rw [run_exec_multi hmulti] at hrun
      simpa using execMulti_keeps hcount hrun
  | false =>
      cases hpipeline : c.mPipeline with
      | true =>
          rw [run_exec_pipeline hmulti hpipeline] at hrun
          simpa using execPipeline_keeps hcount hrun
      | false =>
          have hnone := run_exec_normal hmulti hpipeline
          obtain ⟨_, rfl⟩ := run_unique hnone hrun
          exact Keeps.of_same (by simp) rfl rfl

theorem Keeps.of_input {c d : Client} {stream : Stream} {spared other : Prop}
    (h : Keeps { c with input := stream } d spared) (hother : spared ↔ other) :
    Keeps c d other :=
  ⟨h.grows, h.equal_iff.trans hother⟩

theorem called_keeps {c d : Client} {label : Stream × Call}
    (hcount : c.waiting ≤ c.mMgetKeys.length) (hcalled : Called c label d) :
    Keeps c d (Spares c label) := by
  obtain ⟨stream, call⟩ := label
  cases call with
  | query query =>
      obtain ⟨resp, hrun⟩ := run_discarded_eq_ok hcalled
      refine (query_keeps hrun).of_input ?_
      cases query with
      | command cmd reader => simp [Spares, Query.reader]
      | mget keys => simp [Spares, Query.reader]
  | multi =>
      obtain ⟨resp, hrun⟩ := run_discarded_eq_ok hcalled
      exact (multi_keeps hrun).of_input Iff.rfl
  | pipeline =>
      obtain ⟨entered, hrun⟩ := run_discarded_eq_ok hcalled
      exact (pipeline_keeps hrun).of_input Iff.rfl
  | exec =>
      obtain ⟨responses, hrun⟩ := run_discarded_eq_ok hcalled
      exact (exec_keeps (by exact hcount) hrun).of_input Iff.rfl
  | discard =>
      obtain ⟨resp, hrun⟩ := run_discarded_eq_ok hcalled
      exact (discard_keeps hrun).of_input Iff.rfl

/-! ## Whole runs -/

/-- One key list for each waiting MGET, none in normal mode. -/
structure Matched (c : Client) : Prop where
  count : c.mMgetKeys.length = c.mReaders.count .readMultiString
  normal : c.mMulti = false → c.mPipeline = false → c.mMgetKeys = []

def SparingCall (c : Client) (label : Stream × Call) (d : Client) : Prop :=
  Called c label d ∧ Spares c label

theorem run_waiting_le {input : Stream} {labels : List (Stream × Call)}
    {c : Client} (h : Run Called (connected input) labels c) :
    c.waiting ≤ c.mMgetKeys.length := by
  apply h.invariant fun c => c.waiting ≤ c.mMgetKeys.length
  · simp [waiting, connected]
  · intro before label after hcount hcalled
    have hgrows := (called_keeps hcount hcalled).grows
    omega

theorem run_spared_iff {input : Stream} {labels : List (Stream × Call)}
    {c : Client} (h : Run Called (connected input) labels c) :
    c.mMgetKeys.length = c.waiting ↔
      Run SparingCall (connected input) labels c := by
  constructor
  · intro hequal
    induction h with
    | nil => exact .nil
    | snoc hrun hlast ih =>
        have hcount := run_waiting_le hrun
        obtain ⟨hgrows, hspared⟩ := called_keeps hcount hlast
        exact .snoc (ih (by omega)) ⟨hlast, hspared.mp (by omega)⟩
  · intro hsparing
    apply hsparing.invariant fun c => c.mMgetKeys.length = c.waiting
    · simp [waiting, connected]
    · rintro before label after hequal ⟨hcalled, hspares⟩
      have hkeeps := called_keeps hequal.ge hcalled
      have hsame := hkeeps.equal_iff.mpr hspares
      omega

theorem matched_iff_count {c : Client} (h : Reachable c) :
    Matched c ↔ c.mMgetKeys.length = c.waiting := by
  refine ⟨Matched.count, fun hcount => ⟨hcount, ?_⟩⟩
  intro hmulti hpipeline
  obtain ⟨mode, hmode⟩ := h.represents
  have hnormal : mode = .normal := by
    have hm := hmode.multi
    have hp := hmode.pipeline
    rw [hmulti] at hm
    rw [hpipeline] at hp
    cases mode <;> simp at hm hp ⊢
  subst hnormal
  rw [waiting, (Mode.represents_normal_iff.mp hmode).noReaders] at hcount
  exact List.eq_nil_of_length_eq_zero hcount

/-- No key list is ever left over exactly in the runs in which every
`read_multi_string` finds a multi-bulk reply and `discard` drops none. -/
theorem keys_matched_iff {input : Stream} {labels : List (Stream × Call)}
    {c : Client} (h : Run Called (connected input) labels c) :
    Matched c ↔ Run SparingCall (connected input) labels c :=
  (matched_iff_count ⟨input, labels, h⟩).trans (run_spared_iff h)

theorem called_mget_answered :
    Called (connected (streamOf []))
      (streamOf (encodeMultiBulk [some (bytes "a")]),
        .query (.mget [bytes "x"]))
      { connected (streamOf []) with
        output := (Command.withArguments (bytes "MGET") [bytes "x"]).get } := by
  unfold Called
  decide +kernel

theorem keys_matched_iff_answered :
    let c : Client := { connected (streamOf []) with
      output := (Command.withArguments (bytes "MGET") [bytes "x"]).get }
    let labels := [(streamOf (encodeMultiBulk [some (bytes "a")]),
      Call.query (.mget [bytes "x"]))]
    Matched c ↔ Run SparingCall (connected (streamOf [])) labels c :=
  keys_matched_iff (.snoc .nil called_mget_answered)

/-- An error line in place of the reply leaves the key list behind. -/
theorem mget_error_keeps_keys :
    let labels := [(streamOf (replyLine '-' (bytes "ERR")),
      Call.query (.mget [bytes "x"]))]
    ∃ c, Run Called (connected (streamOf [])) labels c ∧ ¬ Matched c := by
  intro labels
  let c : Client := { connected (streamOf []) with
    output := (Command.withArguments (bytes "MGET") [bytes "x"]).get
    mMgetKeys := [[bytes "x"]] }
  have hcalled : Called (connected (streamOf []))
      (streamOf (replyLine '-' (bytes "ERR")), .query (.mget [bytes "x"]))
      c := by
    unfold Called
    decide +kernel
  refine ⟨c, .snoc .nil hcalled, ?_⟩
  intro hmatched
  exact absurd (hmatched.normal rfl rfl) (by decide)

end Client

end Redispp
