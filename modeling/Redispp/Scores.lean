import Redispp.DoubleRounding
import Redispp.Ranges
import Redispp.ZSetOperations

/-!
# Scores, increments and weights

The calls that take a `double` send the text that the default format of a
stream makes of it.  For whole numbers it is compared, as the server decodes
it, with the number that was passed; any other arrives rounded to six digits,
and does not drift when it comes back and is sent again.
-/

namespace Redispp

open Decimal CLibrary

namespace Client

def zadd (key : Buffer) (score : Double) (member : Buffer) :
    ClientM Response :=
  let cmd := Command.ofKeyword (bytes "ZADD")
  run (((cmd.push key).pushDouble score).push member)
    (.stream .readIntegerAsBool)

def zincrby (key : Buffer) (score : Double) (member : Buffer) :
    ClientM Response :=
  let cmd := Command.ofKeyword (bytes "ZINCRBY")
  run (((cmd.push key).pushDouble score).push member) (.stream .readDouble)

def hincrby (key field : Buffer) (d : Double) : ClientM Response :=
  let cmd := Command.ofKeyword (bytes "HINCRBY")
  run (((cmd.push key).push field).pushDouble d) (.stream .readInteger)

/-- The element at this place of what a call sends denotes the number. -/
def SendsNumber (call : ClientM Response) (place : ℕ) (q : ℚ) : Prop :=
  ∃ elements text, SendsElements call elements ∧
    elements[place]? = some text ∧ numberValue? text = some q

theorem run_sendsNumber_iff {cmd : Command} {reader : ResponseReader}
    {place : ℕ} {q : ℚ} :
    SendsNumber (run cmd reader) place q ↔
      ∃ text, cmd.mElements[place]? = some text ∧
        numberValue? text = some q := by
  simp [SendsNumber, run_sendsElements_iff]

end Client

/-! ## The place of the text among the elements -/

theorem getElem?_weight {keyword key : Buffer} {keys : List Buffer}
    {weights : List Double} {aggregate : Option Buffer} {i : ℕ} {d : Double}
    (hd : weights[i]? = some d) :
    (zSetCommand keyword key keys weights aggregate).mElements[
      4 + keys.length + i]? = some (doubleText d) := by
  have hne : weights.length ≠ 0 := by
    have hlt := (List.getElem?_eq_some_iff.mp hd).1
    omega
  have hplace : 4 + keys.length + i = keys.length + (i + 1) + 1 + 1 + 1 := by
    omega
  rw [mElements_zSetCommand, weightElements, if_pos hne, hplace,
    List.getElem?_cons_succ, List.getElem?_cons_succ,
    List.getElem?_cons_succ, List.getElem?_append_right (by omega),
    Nat.add_sub_cancel_left, List.cons_append, List.getElem?_cons_succ,
    List.getElem?_append_left, List.getElem?_map, hd]
  · rfl
  · rw [List.length_map]
    exact (List.getElem?_eq_some_iff.mp hd).1

namespace Client

theorem zadd_sendsNumber_iff (key member : Buffer) (d : Double) (q : ℚ) :
    SendsNumber (zadd key d member) 2 q ↔
      numberValue? (doubleText d) = some q := by
  simp [zadd, run_sendsNumber_iff, Command.pushDouble]

theorem zincrby_sendsNumber_iff (key member : Buffer) (d : Double) (q : ℚ) :
    SendsNumber (zincrby key d member) 2 q ↔
      numberValue? (doubleText d) = some q := by
  simp [zincrby, run_sendsNumber_iff, Command.pushDouble]

theorem hincrby_sendsNumber_iff (key field : Buffer) (d : Double) (q : ℚ) :
    SendsNumber (hincrby key field d) 3 q ↔
      numberValue? (doubleText d) = some q := by
  simp [hincrby, run_sendsNumber_iff, Command.pushDouble]

theorem genericZSetOperation_sendsNumber_iff {keys : List Buffer}
    {weights : List Double} {aggregate : List Byte} {i : ℕ} {d : Double}
    (hcount : weights.length = keys.length)
    (haggregate : (Buffer.ofCString aggregate).isSome)
    (hd : weights[i]? = some d) (keyword key : Buffer) (q : ℚ) :
    SendsNumber (genericZSetOperation keyword key keys weights aggregate)
        (4 + keys.length + i) q ↔
      numberValue? (doubleText d) = some q := by
  have haccepted : Action.weightsRejected keys weights = false := by
    simp [Action.weightsRejected, hcount]
  have hcopied : Buffer.ofCString aggregate ≠ none :=
    Option.isSome_iff_ne_none.mp haggregate
  rw [Action.genericZSetOperation_accepted haccepted,
    if_neg (fun hfault => hcopied hfault.2), run_sendsNumber_iff]
  simp [getElem?_weight hd]

/-- A whole number arrives as itself, from each of the calls that take a
`double`, exactly when it has no more than six significant digits. -/
theorem score_sent_iff {d : Double} {n : ℤ} (hd : d.value = some (n : ℚ)) :
    (∀ key member, SendsNumber (zadd key d member) 2 n ↔
        keptUnit n.natAbs ∣ n.natAbs) ∧
      (∀ key member, SendsNumber (zincrby key d member) 2 n ↔
        keptUnit n.natAbs ∣ n.natAbs) ∧
      (∀ key field, SendsNumber (hincrby key field d) 3 n ↔
        keptUnit n.natAbs ∣ n.natAbs) ∧
      ∀ key (keys : List Buffer) (weights : List Double) aggregate (i : ℕ),
        weights.length = keys.length →
        (Buffer.ofCString aggregate).isSome → weights[i]? = some d →
        (SendsNumber (zunion key keys weights aggregate)
              (4 + keys.length + i) n ↔
            keptUnit n.natAbs ∣ n.natAbs) ∧
          (SendsNumber (zinter key keys weights aggregate)
              (4 + keys.length + i) n ↔
            keptUnit n.natAbs ∣ n.natAbs) := by
  have htext := numberValue?_doubleText_iff hd
  refine ⟨fun key member => ?_, fun key member => ?_, fun key field => ?_, ?_⟩
  · rw [zadd_sendsNumber_iff, htext]
  · rw [zincrby_sendsNumber_iff, htext]
  · rw [hincrby_sendsNumber_iff, htext]
  · intro key keys weights aggregate i hcount haggregate hweight
    rw [zunion, zinter,
      genericZSetOperation_sendsNumber_iff hcount haggregate hweight,
      genericZSetOperation_sendsNumber_iff hcount haggregate hweight, htext]
    exact ⟨Iff.rfl, Iff.rfl⟩

theorem score_sent_iff_round :
    let d := Double.finite true (1234500 * 2 ^ 32) (-32) (by decide)
    SendsNumber (zadd (bytes "z") d (bytes "m")) 2 (-1234500 : ℤ) ↔
      keptUnit (-1234500 : ℤ).natAbs ∣ (-1234500 : ℤ).natAbs := by
  intro d
  have hd : d.value = some ((-1234500 : ℤ) : ℚ) := by
    norm_num [d, Double.value, signed]
  exact (score_sent_iff hd).1 _ _

/-- Two scores of seven digits are sent as one. -/
theorem score_sent_rounded :
    let d := Double.finite false (1234567 * 2 ^ 32) (-32) (by decide)
    let other := Double.finite false (1234568 * 2 ^ 32) (-32) (by decide)
    d.value = some 1234567 ∧ other.value = some 1234568 ∧
      doubleText d = bytes "1.23457e+06" ∧ doubleText other = doubleText d ∧
      numberValue? (doubleText d) = some 1234570 ∧
      ¬ SendsNumber (zadd (bytes "z") d (bytes "m")) 2 1234567 := by
  intro d other
  have htext : numberValue? (doubleText d) = some 1234570 := by
    decide +kernel
  refine ⟨by norm_num [d, Double.value, signed],
    by norm_num [other, Double.value, signed], by decide +kernel,
    by decide +kernel, htext, ?_⟩
  rw [zadd_sendsNumber_iff, htext, Option.some.injEq]
  norm_num

/-- Whatever finite number is passed, what arrives is off by half a unit of
its sixth digit at most, and the same from each of the calls. -/
theorem score_sent_near {d : Double} {v : ℚ} (hd : d.value = some v) :
    ∃ q, ToSixDigits q v ∧
      (∀ key member, SendsNumber (zadd key d member) 2 q) ∧
      (∀ key member, SendsNumber (zincrby key d member) 2 q) ∧
      (∀ key field, SendsNumber (hincrby key field d) 3 q) ∧
      ∀ key (keys : List Buffer) (weights : List Double) aggregate (i : ℕ),
        weights.length = keys.length →
        (Buffer.ofCString aggregate).isSome → weights[i]? = some d →
        SendsNumber (zunion key keys weights aggregate)
            (4 + keys.length + i) q ∧
          SendsNumber (zinter key keys weights aggregate)
            (4 + keys.length + i) q := by
  obtain ⟨q, htext, hnear⟩ := numberValue?_doubleText_near hd
  refine ⟨q, hnear, fun key member => ?_, fun key member => ?_,
    fun key field => ?_, ?_⟩
  · exact (zadd_sendsNumber_iff key member d q).mpr htext
  · exact (zincrby_sendsNumber_iff key member d q).mpr htext
  · exact (hincrby_sendsNumber_iff key field d q).mpr htext
  · intro key keys weights aggregate i hcount haggregate hweight
    exact ⟨(genericZSetOperation_sendsNumber_iff hcount haggregate hweight
        _ _ q).mpr htext,
      (genericZSetOperation_sendsNumber_iff hcount haggregate hweight
        _ _ q).mpr htext⟩

theorem score_sent_near_third :
    ∃ q, ToSixDigits q (-6004799503160661 * 2 ^ (-54 : ℤ)) ∧
      ∀ key member, SendsNumber
        (zadd key (.finite true 6004799503160661 (-54) (by decide)) member)
        2 q := by
  have hd : (Double.finite true 6004799503160661 (-54) (by decide)).value =
      some (-6004799503160661 * 2 ^ (-54 : ℤ)) := by
    simp [Double.value, signed]
  obtain ⟨q, hnear, hzadd, _⟩ := score_sent_near hd
  exact ⟨q, hnear, hzadd⟩

/-! ## Sending it again -/

/-- No call that takes a `double` tells the two apart, as a weight in whatever
place. -/
structure Alike (d other : Double) : Prop where
  zadd : ∀ key member, Client.zadd key d member = Client.zadd key other member
  zincrby : ∀ key member,
    Client.zincrby key d member = Client.zincrby key other member
  hincrby : ∀ key field,
    Client.hincrby key field d = Client.hincrby key field other
  zunion : ∀ key keys front back aggregate,
    Client.zunion key keys (front ++ d :: back) aggregate =
      Client.zunion key keys (front ++ other :: back) aggregate
  zinter : ∀ key keys front back aggregate,
    Client.zinter key keys (front ++ d :: back) aggregate =
      Client.zinter key keys (front ++ other :: back) aggregate

/-- Of the weights only the texts are used. -/
theorem genericZSetOperation_congr {weights other : List Double}
    (h : weights.map doubleText = other.map doubleText)
    (keyword key : Buffer) (keys : List Buffer) (aggregate : List Byte) :
    genericZSetOperation keyword key keys weights aggregate =
      genericZSetOperation keyword key keys other aggregate := by
  have hlength : weights.length = other.length := by
    simpa using congrArg List.length h
  have hcommand : zSetCommand keyword key keys weights =
      zSetCommand keyword key keys other := by
    funext given
    apply Command.ext_mElements
    rw [mElements_zSetCommand, mElements_zSetCommand, weightElements,
      weightElements, hlength, h]
  unfold genericZSetOperation
  rw [hlength, hcommand]

theorem alike_of_doubleText {d other : Double}
    (h : doubleText d = doubleText other) : Alike d other := by
  have hweights : ∀ front back : List Double,
      (front ++ d :: back).map doubleText =
        (front ++ other :: back).map doubleText := by
    intro front back
    rw [List.map_append, List.map_append, List.map_cons, List.map_cons, h]
  constructor
  · intro key member
    simp [zadd, Command.pushDouble, h]
  · intro key member
    simp [zincrby, Command.pushDouble, h]
  · intro key field
    simp [hincrby, Command.pushDouble, h]
  · intro key keys front back aggregate
    exact genericZSetOperation_congr (hweights front back) _ key keys aggregate
  · intro key keys front back aggregate
    exact genericZSetOperation_congr (hweights front back) _ key keys aggregate

/-- A score comes back in a text of the double that was sent.  Every call that
takes it sends the same bytes again, and from then on the double stays. -/
theorem score_settles {d : Double} (hd : d.Fine) {text : Buffer}
    (hpayload : Payload text) (htext : atof text = atof (doubleText d)) :
    ∃ resp again, Reads readDouble (encodeBulk (some text)) resp ∧
      resp.type = .double ∧ resp.mDouble = some again ∧
      atof (doubleText again) = again ∧ Alike again d := by
  have hsame : doubleText (atof text) = doubleText d := by
    rw [htext, doubleText_stable hd]
  obtain ⟨hpos, hmax⟩ := hpayload
  have hne : text ≠ [] := by
    rintro rfl
    simp at hpos
  refine ⟨.ofDouble text, atof text, ?_, rfl, rfl, ?_,
    alike_of_doubleText hsame⟩
  · exact (readString_reads_bulk hne hmax).bind_pure rfl
  · rw [hsame, htext]

/-- One third, with the digits that the server keeps of it. -/
theorem score_settles_third :
    let d := Double.finite false 6004799503160661 (-54) (by decide)
    ∃ resp again,
      Reads readDouble (encodeBulk (some (bytes "0.33333299999999999"))) resp ∧
      resp.type = .double ∧ resp.mDouble = some again ∧
      atof (doubleText again) = again ∧ Alike again d := by
  intro d
  apply score_settles
  · exact Double.fine_of_normal _ (by decide) false
  · exact ⟨by decide, by decide⟩
  · decide +kernel

end Client

end Redispp
