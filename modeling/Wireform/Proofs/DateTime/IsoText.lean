import Wireform.DateTime.Iso
import Wireform.DateTime.Text
import Wireform.Proofs.Calendar
import Wireform.Proofs.DateTime.WholeMillis
import Wireform.Proofs.Numeral
import Mathlib.Data.List.TakeWhile

/-!
# Reading ISO texts back

The text `YYYY-MM-DDTHH:MM:SS.sssZ` of a time in UTC is read as that time, if the time is a whole number of
milliseconds. The text is read field by field, each of a fixed width.
-/
namespace Wireform.DateTime

open Calendar
open Numeral (padded)

/-- A field of fixed width is read and the text after it is left. -/
theorem takeFixed?_padded {width n : Nat} (hw : 0 < width) (hn : n < 10 ^ width)
    (rest : List Char) : takeFixed? width (padded width n ++ rest) = some (n, rest) := by
  have hlength := Numeral.length_padded hw hn
  have htake : (padded width n ++ rest).take width = padded width n := by
    rw [List.take_append_of_le_length (by omega), List.take_of_length_le (by omega)]
  have hdrop : (padded width n ++ rest).drop width = rest := by
    rw [List.drop_append_of_le_length (by omega), List.drop_of_length_le (by omega), List.nil_append]
  have hall : (padded width n).all Char.isDigit = true :=
    List.all_eq_true.mpr fun _ => Numeral.isDigit_of_mem_padded
  simp only [takeFixed?, htake, hdrop, hlength, hall, Numeral.ofDigits_padded, and_self, if_true]

theorem takeFixed?_padded_nil {width n : Nat} (hw : 0 < width) (hn : n < 10 ^ width) :
    takeFixed? width (padded width n) = some (n, []) := by
  simpa using takeFixed?_padded hw hn []

theorem length_civil_text {c : Civil} (h : c.valid = true) : c.text.length = 10 := by
  obtain ⟨hy, hm, hd⟩ := Civil.valid.bounds h
  simp only [Civil.text, List.length_append, List.length_cons,
    Numeral.length_padded (by decide) (show c.year < 10 ^ 4 by omega),
    Numeral.length_padded (by decide) (show c.month < 10 ^ 2 by omega),
    Numeral.length_padded (by decide) (show c.day < 10 ^ 2 by omega)]

/-- A text that begins like a calendar date has a date of ten characters. -/
theorem dateLength?_civil_text {c : Civil} (h : c.valid = true) {rest : List Char} :
    dateLength? (c.text ++ rest) = some 10 := by
  obtain ⟨hy, hm, hd⟩ := Civil.valid.bounds h
  have hyear := Numeral.length_padded (by decide) (show c.year < 10 ^ 4 by omega)
  obtain ⟨m, ms, hmonth, hdigit⟩ := Numeral.padded_eq_cons 2 c.month
  have hlength : (c.text ++ rest).length ≠ 7 := by
    rw [List.length_append, length_civil_text h]
    omega
  have hdash : (c.text ++ rest)[4]? = some '-' := by
    simp [Civil.text, List.append_assoc, hyear]
  have hweek : (c.text ++ rest)[5]? ≠ some 'W' := by
    have : (c.text ++ rest)[5]? = some m := by
      simp [Civil.text, List.append_assoc, List.getElem?_append_right, hyear, hmonth]
    rw [this]
    simpa using Numeral.ne_of_isDigit hdigit (show 'W'.isDigit = false by decide)
  simp only [dateLength?, if_neg hlength, if_pos hdash, if_neg hweek]

/-- The text of a valid date names its day. -/
theorem readDay?_civil_text {c : Civil} (h : c.valid = true) :
    readDay? c.text = ofCivil? c.year c.month c.day := by
  obtain ⟨hy, hm, hd⟩ := Civil.valid.bounds h
  have hyear := takeFixed?_padded (by decide) (show c.year < 10 ^ 4 by omega)
    ('-' :: (padded 2 c.month ++ '-' :: padded 2 c.day))
  have hmonth := takeFixed?_padded (by decide) (show c.month < 10 ^ 2 by omega)
    ('-' :: padded 2 c.day)
  have hday := takeFixed?_padded_nil (by decide) (show c.day < 10 ^ 2 by omega)
  have htext : c.text = padded 4 c.year ++ '-' :: (padded 2 c.month ++ '-' :: padded 2 c.day) := by
    simp [Civil.text]
  rw [htext, readDay?, hyear]
  obtain ⟨m, ms, hcons, hdigit⟩ := Numeral.padded_eq_cons 2 c.month
  have hweek : m ≠ 'W' := Numeral.ne_of_isDigit hdigit (by decide)
  simp only [List.head?_cons, decide_true, if_true, List.drop_succ_cons, List.drop_zero]
  -- The month begins with a digit, so the text is no week date.
  rw [hcons, List.cons_append] at hmonth ⊢
  split
  · rename_i heq
    exact absurd (List.cons.inj heq).1 hweek
  · simp [hmonth, hday]

/-- A fraction of a second of one to six digits. -/
theorem readFraction?_digits {digits : List Char} (hne : digits ≠ [])
    (hall : ∀ c ∈ digits, c.isDigit = true) (hlength : digits.length ≤ 6) :
    readFraction? ('.' :: digits) = some (Numeral.ofDigits digits * 10 ^ (6 - digits.length)) := by
  have hall' : digits.all Char.isDigit = true := List.all_eq_true.mpr hall
  rw [readFraction?, if_pos ⟨.inl rfl, hne, hall'⟩, List.take_of_length_le hlength]

/-- The fields of a time of day, with any fraction. -/
theorem readClock?_fields {hour minute second micro : Nat} {fraction : List Char} (hh : hour < 24)
    (hm : minute < 60) (hs : second < 60) (hf : readFraction? fraction = some micro) :
    readClock? (padded 2 hour ++ ':' :: (padded 2 minute ++ ':' :: (padded 2 second ++ fraction))) =
      some ⟨hour, minute, second, micro⟩ := by
  have hhour := takeFixed?_padded (by decide) (show hour < 10 ^ 2 by omega)
    (':' :: (padded 2 minute ++ ':' :: (padded 2 second ++ fraction)))
  have hminute := takeFixed?_padded (by decide) (show minute < 10 ^ 2 by omega)
    (':' :: (padded 2 second ++ fraction))
  have hsecond := takeFixed?_padded (by decide) (show second < 10 ^ 2 by omega) fraction
  simp [readClock?, hhour, hminute, readSeconds?, hsecond, hf]

/-- The clock of a text ends where its zone begins. -/
theorem startsZone_of_isDigit {c : Char} (h : c.isDigit = true) : startsZone c = false := by
  have hplus : c ≠ '+' := Numeral.ne_of_isDigit h (by decide)
  have hminus : c ≠ '-' := Numeral.ne_of_isDigit h (by decide)
  have hz : c ≠ 'Z' := Numeral.ne_of_isDigit h (by decide)
  simp [startsZone, hplus, hminus, hz]

/-- A time of day and a zone after it, which is empty or begins with a character that starts one. -/
theorem readTime?_fields {hour minute second micro : Nat} {fraction zone : List Char}
    {offset : Option Offset} (hh : hour < 24) (hm : minute < 60) (hs : second < 60)
    (hf : readFraction? fraction = some micro) (hplain : ∀ c ∈ fraction, startsZone c = false)
    (hz : readZone? zone = some offset) (hstart : ∀ c ∈ zone.head?, startsZone c = true) :
    readTime? (padded 2 hour ++ ':' :: (padded 2 minute ++ ':' :: (padded 2 second ++ fraction)) ++ zone) =
      some (((hour * 60 + minute) * 60 + second) * 1000000 + micro, offset) := by
  have hclock := readClock?_fields hh hm hs hf
  generalize hcs : padded 2 hour ++ ':' :: (padded 2 minute ++ ':' :: (padded 2 second ++ fraction)) = cs
    at hclock
  have hcolon : startsZone ':' = false := by decide
  have hno : ∀ c ∈ cs, (!startsZone c) = true := by
    intro c hc
    have hdigit {n : Nat} (h : c ∈ padded 2 n) := startsZone_of_isDigit (Numeral.isDigit_of_mem_padded h)
    rw [← hcs] at hc
    simp only [List.mem_append, List.mem_cons] at hc
    have hfalse : startsZone c = false := by
      rcases hc with hc | rfl | hc | rfl | hc | hc
      · exact hdigit hc
      · exact hcolon
      · exact hdigit hc
      · exact hcolon
      · exact hdigit hc
      · exact hplain c hc
    rw [hfalse, Bool.not_false]
  have hnone : zone.takeWhile (!startsZone ·) = [] ∧ zone.dropWhile (!startsZone ·) = zone := by
    cases zone with
    | nil => exact ⟨rfl, rfl⟩
    | cons c zone =>
        have hc : ¬ (!startsZone c) = true := by simp [hstart c rfl]
        exact ⟨List.takeWhile_cons_of_neg hc, List.dropWhile_cons_of_neg hc⟩
  have htake : (cs ++ zone).takeWhile (!startsZone ·) = cs := by
    rw [List.takeWhile_append_of_pos hno, hnone.1, List.append_nil]
  have hdrop : (cs ++ zone).dropWhile (!startsZone ·) = zone := by
    rw [List.dropWhile_append_of_pos hno, hnone.2]
  simp [readTime?, htake, hdrop, hclock, hh, hm, hs, hz, Clock.micros]

/-- A date, a `T` and a time of day after it. -/
theorem readIso?_civil_text {c : Civil} (h : c.valid = true) {time : List Char} {micros : Nat}
    {offset : Option Offset} (htime : readTime? time = some (micros, offset)) :
    readIso? (c.text ++ 'T' :: time) = ofDay? c.ordinal micros offset := by
  have hday : readDay? c.text = some c.ordinal := by
    rw [readDay?_civil_text h]
    exact if_pos h
  have hlength : c.text.length = 10 := length_civil_text h
  have hlong : ¬ (c.text ++ 'T' :: time).length < 7 := by
    rw [List.length_append, hlength]
    omega
  have htake : (c.text ++ 'T' :: time).take 10 = c.text := by
    rw [List.take_append_of_le_length (by omega), List.take_of_length_le (by omega)]
  have hdrop : (c.text ++ 'T' :: time).drop 10 = 'T' :: time := by
    rw [List.drop_append_of_le_length (by omega), List.drop_of_length_le (by omega),
      List.nil_append]
  have hdate : dateLength? (c.text ++ 'T' :: time) = some 10 := dateLength?_civil_text h
  simp only [readIso?, if_neg hlong, hdate, htake, hday, hdrop, htime]

/-- The day of a time and the fields of its clock make up the time again. -/
theorem ticks_eq_fields {t : DateTime} (h : t.micro % 1000 = 0) :
    t.ticks / microsPerDay * microsPerDay +
      (((t.hour * 60 + t.minute) * 60 + t.second) * 1000000 + t.micro / 1000 * 1000) = t.ticks := by
  simp only [hour, minute, second, micro, microsPerDay] at h ⊢
  omega

theorem day_lt (t : DateTime) : t.ticks / microsPerDay < dayCount :=
  (Nat.div_lt_iff_lt_mul (by decide)).mpr t.inCalendar

/-- The text of a time in whole milliseconds is read as that time. -/
theorem readIso?_fields {t : DateTime} (h : t.WholeMillis) :
    readIso? (t.civil.text ++ 'T' :: t.clockText ++ '.' :: padded 3 (t.micro / 1000) ++ ['Z']) =
      some t := by
  have hhour : t.hour < 24 := Nat.mod_lt _ (by decide)
  have hminute : t.minute < 60 := Nat.mod_lt _ (by decide)
  have hsecond : t.second < 60 := Nat.mod_lt _ (by decide)
  have hmillis : t.micro / 1000 < 1000 := by
    simp only [micro]
    omega
  have hlength := Numeral.length_padded (by decide) (show t.micro / 1000 < 10 ^ 3 from hmillis)
  have hdigits : ∀ c ∈ padded 3 (t.micro / 1000), c.isDigit = true := fun _ => Numeral.isDigit_of_mem_padded
  have hfraction := readFraction?_digits (List.ne_nil_of_length_pos (by omega)) hdigits
    (show (padded 3 (t.micro / 1000)).length ≤ 6 by omega)
  have hplain : ∀ c ∈ '.' :: padded 3 (t.micro / 1000), startsZone c = false :=
    List.forall_mem_cons.mpr ⟨by decide, fun c hc => startsZone_of_isDigit (hdigits c hc)⟩
  have hzone : readZone? ['Z'] = some (some .utc) := rfl
  have htime := readTime?_fields hhour hminute hsecond hfraction hplain hzone (by simp [startsZone])
  have htext : t.civil.text ++ 'T' :: t.clockText ++ '.' :: padded 3 (t.micro / 1000) ++ ['Z'] =
      t.civil.text ++ 'T' :: (padded 2 t.hour ++ ':' :: (padded 2 t.minute ++
        ':' :: (padded 2 t.second ++ '.' :: padded 3 (t.micro / 1000))) ++ ['Z']) := by
    simp [clockText]
  rw [htext, civil, readIso?_civil_text (valid_civil t.day_lt) htime, ordinal_civil t.day_lt,
    Numeral.ofDigits_padded, hlength, ofDay?, ticks_eq_fields h.whole, ← h.utc, ofTicks?_ticks]

/-- A time in whole milliseconds has an ISO text, and the text is read as that time. -/
theorem ofIso?_isoText? {t : DateTime} (h : t.WholeMillis) :
    ∃ text, t.isoText? = some text ∧ text ≠ "" ∧ ofIso? text.toList = some t := by
  refine ⟨_, by rw [isoText?, toUtc?_of_utc h.utc, Option.map_some], ?_, ?_⟩
  · intro hempty
    have := congrArg String.toList hempty
    simp at this
  · rw [String.toList_ofList, ofIso?, readIso?_fields h]
    simp only [toUtc?_of_utc h.utc, Option.map_some, floorMillis_of_whole h.whole]

end Wireform.DateTime
