import Redispp.Readers

/-!
# Replies in pieces

A schedule says where each piece of the stream ends, and with that how many of
the requested bytes every `read` call returns.  What a reader returns and what
it leaves unread depends on the bytes alone.
-/

namespace Redispp

open StateExcept

theorem multiStringLoop_local (keys : List Buffer) (ret : Response) :
    Local (multiStringLoop keys ret) := by
  induction keys generalizing ret with
  | nil => exact Feed.Local.pure _
  | cons key keys ih =>
      apply readString_local.bind
      intro v
      exact Feed.Local.ite (ih _) (ih _)

theorem readMultiString_local (mgetKeys : List (List Buffer)) :
    Local (readMultiString mgetKeys) := by
  apply getline_local.bind
  intro str
  apply Feed.Local.ite (Feed.Local.pure _)
  split
  · exact Feed.Local.pure _
  · next keys _ =>
      apply Feed.Local.ite (Feed.Local.pure _)
      exact (multiStringLoop_local keys _).bind fun _ => Feed.Local.pure _

theorem ResponseReader.call_local (reader : ResponseReader)
    (mgetKeys : List (List Buffer)) : Local (reader.call mgetKeys) := by
  cases reader with
  | stream reader => exact reader.recv_local.bind fun _ => Feed.Local.pure _
  | readMultiString => exact readMultiString_local mgetKeys

/-- On these arrivals the reader returns the response, hands back the key
lists and leaves the bytes. -/
def ResponseReader.Returns (reader : ResponseReader)
    (mgetKeys : List (List Buffer)) (arrivals : List Arrival)
    (resp : Response) (left : List (List Buffer)) (unread : List Byte) :
    Prop :=
  ∃ rest, (reader.call mgetKeys).run ⟨arrivals, .silent⟩ =
      .ok ((resp, left), ⟨rest, .silent⟩) ∧ Delivers rest unread

theorem ResponseReader.Returns.schedule {reader : ResponseReader}
    {mgetKeys left : List (List Buffer)} {arrivals others : List Arrival}
    {resp : Response} {bs unread : List Byte}
    (h : reader.Returns mgetKeys arrivals resp left unread)
    (harrivals : Delivers arrivals bs) (hothers : Delivers others bs) :
    reader.Returns mgetKeys others resp left unread := by
  obtain ⟨rest, hrun, hunread⟩ := h
  let other : Stream := ⟨others, .silent⟩
  have hpending : Delivers other.pending bs := hothers
  obtain ⟨rest', back, hother, hback, hrest⟩ :=
    (reader.call_local mgetKeys).carried rfl harrivals hpending hrun
  rw [hunread.bytes_unique hback]
  exact ⟨rest', hother, hrest⟩

/-- Under two schedules of the same bytes every reader returns the same and
leaves the same. -/
theorem returns_schedule_iff {arrivals others : List Arrival}
    {bs : List Byte} (harrivals : Delivers arrivals bs)
    (hothers : Delivers others bs) (reader : ResponseReader)
    (mgetKeys : List (List Buffer)) (resp : Response)
    (left : List (List Buffer)) (unread : List Byte) :
    reader.Returns mgetKeys arrivals resp left unread ↔
      reader.Returns mgetKeys others resp left unread :=
  ⟨fun h => h.schedule harrivals hothers,
    fun h => h.schedule hothers harrivals⟩

/-- A body that comes whole, and one that comes byte by byte. -/
theorem returns_schedule_iff_bytewise :
    let bs := bytes "$3\r\nabc\r\n:1\r\n"
    (ResponseReader.stream .readString).Returns [] (bs.map fun b => .byte b true)
      (.ofString (bytes "abc")) [] (bytes ":1\r\n") := by
  intro bs
  have hbytewise : Delivers (bs.map fun b => .byte b true) bs := by
    unfold Delivers Feed.Carries
    rw [List.map_map]
    rfl
  have hwhole : (ResponseReader.stream .readString).Returns []
      (arrivalsOf bs) (.ofString (bytes "abc")) [] (bytes ":1\r\n") :=
    ⟨arrivalsOf (bytes ":1\r\n"), by decide +kernel, delivers_arrivalsOf _⟩
  exact (returns_schedule_iff (delivers_arrivalsOf bs) hbytewise _ _ _ _
    _).mp hwhole

end Redispp
