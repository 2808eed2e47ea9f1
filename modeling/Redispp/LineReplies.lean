import Redispp.Replies
import Redispp.Client

/-!
# Status lines with a payload

`read_single_line` hands the text behind the mark to the constructor that
takes a C string.  What it returns is the text exactly when that constructor
copies the whole of it.
-/

namespace Redispp

open StateExcept CLibrary

theorem readSingleLine_run {text : Buffer} {arrivals : List Arrival}
    (rest : Stream) (hCR : CR ∉ text) (hLF : LF ∉ text)
    (harrivals : Delivers arrivals (replyLine '+' text)) :
    readSingleLine.run (rest.push arrivals) =
      match Buffer.ofCString text with
      | none => .error .invertedRange
      | some s => .ok (.ofString s, rest) := by
  have hmark : ascii '+' ≠ LF := by decide
  obtain ⟨line, hline, hsplit⟩ := replyLine_split hmark hLF
  rw [hsplit] at harrivals
  have hread := getline_reads hline arrivals rest harrivals
  rw [← hsplit] at hread
  have hkept : (replyLine '+' text).takeWhile (· ≠ CR) =
      ascii '+' :: text := by
    have hmem : CR ∉ ascii '+' :: text := by
      simp [hCR, show CR ≠ ascii '+' by decide]
    unfold replyLine
    rw [← List.cons_append,
      List.takeWhile_append_of_pos (decide_ne_of_not_mem hmem)]
    simp
  unfold readSingleLine
  rw [run_bind_of_ok hread, if_pos (head_replyLine '+' text)]
  dsimp only
  rw [hkept, List.tail_cons]
  cases Buffer.ofCString text <;> rfl

namespace Client

def randomkey : ClientM Response :=
  run (.ofKeyword (bytes "RANDOMKEY")) (.stream .readSingleLine)

theorem run_randomkey {c : Client} (hmulti : c.mMulti = false)
    (hpipeline : c.mPipeline = false) :
    randomkey.run c = (receive readSingleLine).run { c with
      output :=
        c.output ++ (Command.ofKeyword (bytes "RANDOMKEY")).get } := by
  rw [randomkey, run_run_normal hpipeline hmulti, run_call_stream]
  rfl

end Client

/-- A payload without CR and LF comes back, from the reader and from
`randomkey`, exactly when it has no NUL and its length is an `int`. -/
theorem singleLine_payload_iff {text : Buffer} {arrivals : List Arrival}
    {rest : Stream} (hCR : CR ∉ text) (hLF : LF ∉ text)
    (harrivals : Delivers arrivals (replyLine '+' text)) :
    (readSingleLine.run (rest.push arrivals) = .ok (.ofString text, rest) ↔
        0 ∉ text ∧ (text.length : ℤ) ≤ INT_MAX) ∧
      ∀ c : Client, c.mMulti = false → c.mPipeline = false →
        c.input = rest.push arrivals →
        ((∃ d, Client.randomkey.run c = .ok (.ofString text, d) ∧
            d.input = rest) ↔
          0 ∉ text ∧ (text.length : ℤ) ≤ INT_MAX) := by
  have hrun := readSingleLine_run rest hCR hLF harrivals
  have hreader : readSingleLine.run (rest.push arrivals) =
      .ok (.ofString text, rest) ↔
        0 ∉ text ∧ (text.length : ℤ) ≤ INT_MAX := by
    rw [← Buffer.ofCString_eq_self_iff, hrun]
    cases Buffer.ofCString text with
    | none => simp
    | some s =>
        constructor
        · intro h
          have hresp := (Prod.mk.inj (Except.ok.inj h)).1
          exact congrArg some (congrArg Response.mStr hresp)
        · intro h
          rw [Option.some.inj h]
  refine ⟨hreader, ?_⟩
  intro c hmulti hpipeline hinput
  rw [← hreader, ← hinput, Client.run_randomkey hmulti hpipeline]
  constructor
  · rintro ⟨d, hkey, hleft⟩
    obtain ⟨input, hread, rfl⟩ := Client.run_receive_eq_ok hkey
    rw [← hleft]
    exact hread
  · intro hread
    exact ⟨_, Client.run_receive_of_ok hread, rfl⟩

theorem singleLine_payload_iff_key :
    (readSingleLine.run
          ((streamOf (bytes ":1\r\n")).push
            (arrivalsOf (replyLine '+' (bytes "key")))) =
        .ok (.ofString (bytes "key"), streamOf (bytes ":1\r\n")) ↔
        0 ∉ bytes "key" ∧ ((bytes "key").length : ℤ) ≤ INT_MAX) ∧
      ∀ c : Client, c.mMulti = false → c.mPipeline = false →
        c.input = (streamOf (bytes ":1\r\n")).push
          (arrivalsOf (replyLine '+' (bytes "key"))) →
        ((∃ d, Client.randomkey.run c = .ok (.ofString (bytes "key"), d) ∧
            d.input = streamOf (bytes ":1\r\n")) ↔
          0 ∉ bytes "key" ∧ ((bytes "key").length : ℤ) ≤ INT_MAX) :=
  singleLine_payload_iff (by decide) (by decide) (delivers_arrivalsOf _)

/-- A key with a NUL is cut there. -/
theorem singleLine_payload_cut :
    let text := bytes "a" ++ [0] ++ bytes "b"
    CR ∉ text ∧ LF ∉ text ∧
      readSingleLine.run (streamOf (replyLine '+' text)) ≠
        .ok (.ofString text, streamOf []) ∧
      readSingleLine.run (streamOf (replyLine '+' text)) =
        .ok (.ofString (bytes "a"), streamOf []) := by
  decide +kernel

end Redispp
