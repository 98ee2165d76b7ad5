import Provenance.Proofs.Vlq.Registers

/-!
# Which texts are numbers

Bytes are read as long as they are base-64 digits and their numbers fit into 64 bits. The loop on
words keeps what these digits stand for: all groups that have an end, and the number and the place
of the one that has none.

* `Vlq.Spells bytes ds` : the bytes are the digits `ds`, and their numbers fit;
* `Vlq.FirstFault` : what is wrong with the first byte that breaks this, or with the end;
* `Vlq.reached ds`, `Vlq.step_reached` : the registers behind digits, and what one more byte does;
  `Vlq.foldlM_step_eq_ok_iff` : what any number of bytes does;
* `Vlq.decode_eq_ok_iff`, `Vlq.decode_eq_error_iff` : which texts are read, as what, and which
  fault is found in all others;
* `Vlq.decode_numbers_or_firstFault` : both, with the loop on words, which never overflows.
-/

namespace Provenance.Vlq

/-! ## Texts of digits -/

/-- Bytes that are the base-64 digits `ds`, with no number among them of more than 64 bits. -/
structure Spells (bytes : List UInt8) (ds : List Nat) : Prop where
  digits : bytes.map digitOf? = ds.map some
  fits : ∀ g ∈ groups ds, Fits g

/-- What is wrong with the first byte that is no digit or takes its number beyond 64 bits or, where
there is no such byte, with a last number that does not end. -/
inductive FirstFault (bytes : List UInt8) : Fault → Prop
  | badDigit {before after : List UInt8} {byte : UInt8} {ds : List Nat}
      (cut : bytes = before ++ byte :: after) (hbefore : Spells before ds)
      (h : digitOf? byte = none) : FirstFault bytes (.badDigit byte)
  | tooWide {before after : List UInt8} {byte : UInt8} {ds : List Nat} {d : Nat}
      (cut : bytes = before ++ byte :: after) (hbefore : Spells before ds)
      (hd : digitOf? byte = some d) (h : ∃ g ∈ groups (ds ++ [d]), ¬Fits g) :
      FirstFault bytes .tooWide
  | unterminated {ds : List Nat} {d : Nat} (hbytes : Spells bytes ds) (hd : d ∈ ds.getLast?)
      (h : 32 ≤ d) : FirstFault bytes .unterminated

variable {bytes : List UInt8} {byte : UInt8} {ds : List Nat} {d : Nat}

theorem spells_nil_iff : Spells [] ds ↔ ds = [] := by
  constructor
  · intro h
    exact List.map_eq_nil_iff.1 h.digits.symm
  · rintro rfl
    exact ⟨rfl, List.forall_mem_nil _⟩

theorem spells_concat_iff {es : List Nat} :
    Spells (bytes ++ [byte]) es ↔
      ∃ ds d, Spells bytes ds ∧ digitOf? byte = some d ∧ Fits (unfinished ds ++ [d]) ∧
        es = ds ++ [d] := by
  constructor
  · rintro ⟨hdigits, hfits⟩
    rw [List.map_append] at hdigits
    obtain ⟨ds, last, rfl, hds, hlast⟩ := List.map_eq_append_iff.1 hdigits.symm
    obtain ⟨d, rfl, hd⟩ := List.map_eq_singleton_iff.1 hlast
    obtain ⟨hfits, hfit⟩ := forall_fits_concat_iff.1 hfits
    exact ⟨ds, d, ⟨hds.symm, hfits⟩, hd.symm, hfit, rfl⟩
  · rintro ⟨ds, d, hds, hd, hfit, rfl⟩
    refine ⟨?_, forall_fits_concat_iff.2 ⟨hds.fits, hfit⟩⟩
    rw [List.map_append, List.map_append, hds.digits, List.map_singleton, List.map_singleton, hd]

/-! ## What the loop has reached -/

def word (g : List Nat) : BitVec 64 := BitVec.ofInt 64 (toInt (number g))

/-- The registers behind digits: the groups that have an end, and the one that has none. -/
def reached (ds : List Nat) : Registers :=
  .holding ((groups (complete ds)).map word) (number (unfinished ds)) (5 * (unfinished ds).length)

theorem reached_concat_of_le (h : 32 ≤ d) :
    reached (ds ++ [d]) =
      .holding ((groups (complete ds)).map word)
        (number (unfinished ds) + (d % 32) <<< (5 * (unfinished ds).length))
        (5 * (unfinished ds).length + 5) := by
  have hmarked : isMarked d = true := decide_eq_true h
  rw [reached, complete, unfinished, List.rdropWhile_concat_pos _ _ _ hmarked,
    List.rtakeWhile_concat_pos _ _ _ hmarked, ← number_concat, List.length_append]
  rfl

theorem reached_concat_of_lt (h : d < 32) :
    reached (ds ++ [d]) =
      .holding ((groups (complete ds)).map word ++ [word (unfinished ds ++ [d])]) 0 0 := by
  have hmarked : ¬isMarked d = true := by rw [isMarked, decide_eq_true_eq]; omega
  rw [reached, complete, unfinished, List.rdropWhile_concat_neg _ _ _ hmarked,
    List.rtakeWhile_concat_neg _ _ _ hmarked, groups_concat, List.map_append]
  rfl

/-- A byte takes the loop from digits to digits, or it is the first that is wrong. -/
theorem step_reached (h : ∀ g ∈ groups ds, Fits g) (byte : UInt8) :
    (reached ds).step byte =
      match digitOf? byte with
      | none => .error (.fault (.badDigit byte))
      | some d =>
        if Fits (unfinished ds ++ [d]) then .ok (reached (ds ++ [d]))
        else .error (.fault .tooWide) := by
  rw [reached, Registers.step_holding (number_lt _)]
  cases digitOf? byte with
  | none => rfl
  | some d =>
    dsimp only
    have hfits := fits_concat_iff (d := d) (fits_unfinished h)
    by_cases hfit : Fits (unfinished ds ++ [d])
    · rw [if_neg (hfits.1 hfit), if_pos hfit]
      by_cases hmark : 32 ≤ d
      · rw [if_pos hmark, reached_concat_of_le hmark]
      · rw [if_neg hmark, reached_concat_of_lt (Nat.not_le.1 hmark), word, number_concat]
    · rw [if_pos (not_not.1 (mt hfits.2 hfit)), if_neg hfit]

theorem step_reached_eq_ok_iff (h : ∀ g ∈ groups ds, Fits g) {r : Registers} :
    (reached ds).step byte = .ok r ↔
      ∃ d, digitOf? byte = some d ∧ Fits (unfinished ds ++ [d]) ∧ r = reached (ds ++ [d]) := by
  rw [step_reached h]
  cases digitOf? byte with
  | none => exact iff_of_false nofun nofun
  | some d =>
    by_cases hfit : Fits (unfinished ds ++ [d])
    · simp [hfit, eq_comm]
    · simp [hfit]

theorem step_reached_eq_error_iff (h : ∀ g ∈ groups ds, Fits g) {stop : Stop} :
    (reached ds).step byte = .error stop ↔
      (digitOf? byte = none ∧ stop = .fault (.badDigit byte)) ∨
        ∃ d, digitOf? byte = some d ∧ ¬Fits (unfinished ds ++ [d]) ∧ stop = .fault .tooWide := by
  rw [step_reached h]
  cases digitOf? byte with
  | none => simp [eq_comm]
  | some d =>
    by_cases hfit : Fits (unfinished ds ++ [d])
    · simp [hfit]
    · simp [hfit, eq_comm]

/-- Behind any bytes without a fault the loop has reached their digits. -/
theorem foldlM_step_eq_ok_iff {r : Registers} :
    bytes.foldlM Registers.step (reached []) = .ok r ↔ ∃ ds, Spells bytes ds ∧ r = reached ds := by
  -- From the right: the registers in front of the last byte are those behind its digits.
  induction bytes using List.reverseRecOn generalizing r with
  | nil => simp [spells_nil_iff, pure, Except.pure, eq_comm]
  | append_singleton bytes byte ih =>
    rw [List.foldlM_append, Except.bind_eq_ok]
    simp only [List.foldlM_cons, List.foldlM_nil, bind_pure, ih, spells_concat_iff]
    constructor
    · rintro ⟨_, ⟨ds, hds, rfl⟩, hstep⟩
      obtain ⟨d, hd, hfit, rfl⟩ := (step_reached_eq_ok_iff hds.fits).1 hstep
      exact ⟨ds ++ [d], ⟨ds, d, hds, hd, hfit, rfl⟩, rfl⟩
    · rintro ⟨_, ⟨ds, d, hds, hd, hfit, rfl⟩, rfl⟩
      exact ⟨reached ds, ⟨ds, hds, rfl⟩, (step_reached_eq_ok_iff hds.fits).2 ⟨d, hd, hfit, rfl⟩⟩

/-- The numbers are all there unless the last of them has no end. -/
theorem finish_reached (ds : List Nat) :
    (reached ds).finish =
      if unfinished ds = [] then .ok ((groups ds).map word)
      else .error (.fault .unterminated) := by
  rw [Registers.finish, reached, Registers.holding]
  by_cases hnil : unfinished ds = []
  · rw [if_pos hnil, complete_eq_self hnil, hnil]
    rfl
  · have hplace : 5 * (unfinished ds).length ≠ 0 := by
      rw [Nat.mul_ne_zero_iff, and_iff_right (by decide), Ne, List.length_eq_zero_iff]
      exact hnil
    rw [if_neg hnil, if_pos (decide_eq_true hplace)]

theorem readWords_eq_ok_iff {values : List (BitVec 64)} :
    readWords bytes = .ok values ↔
      ∃ ds, Spells bytes ds ∧ (∀ d ∈ ds.getLast?, d < 32) ∧ values = (groups ds).map word := by
  show bytes.foldlM Registers.step (reached []) >>= Registers.finish = .ok values ↔ _
  simp only [← unfinished_eq_nil_iff]
  rw [Except.bind_eq_ok]
  constructor
  · rintro ⟨_, hr, hend⟩
    obtain ⟨ds, hds, rfl⟩ := foldlM_step_eq_ok_iff.1 hr
    rw [finish_reached] at hend
    split at hend
    · next hnil => exact ⟨ds, hds, hnil, (Except.ok.inj hend).symm⟩
    · exact nomatch hend
  · rintro ⟨ds, hds, hnil, rfl⟩
    exact ⟨reached ds, foldlM_step_eq_ok_iff.2 ⟨ds, hds, rfl⟩, by rw [finish_reached, if_pos hnil]⟩

theorem readWords_eq_error_iff {fault : Fault} :
    readWords bytes = .error (.fault fault) ↔ FirstFault bytes fault := by
  show bytes.foldlM Registers.step (reached []) >>= Registers.finish = .error (.fault fault) ↔ _
  rw [Except.bind_eq_error, Except.foldlM_eq_error]
  constructor
  · rintro (⟨before, byte, after, _, cut, hbefore, hstep⟩ | ⟨_, hr, hend⟩)
    · obtain ⟨ds, hds, rfl⟩ := foldlM_step_eq_ok_iff.1 hbefore
      obtain ⟨hbyte, hfault⟩ | ⟨d, hd, hfit, hfault⟩ := (step_reached_eq_error_iff hds.fits).1 hstep
      · obtain rfl := Stop.fault.inj hfault
        exact .badDigit cut hds hbyte
      · obtain rfl := Stop.fault.inj hfault
        exact .tooWide cut hds hd ((exists_not_fits_concat_iff hds.fits).2 hfit)
    · obtain ⟨ds, hds, rfl⟩ := foldlM_step_eq_ok_iff.1 hr
      rw [finish_reached] at hend
      split at hend
      · exact nomatch hend
      · next hnil =>
        obtain rfl := Stop.fault.inj (Except.error.inj hend)
        rw [unfinished_eq_nil_iff] at hnil
        push Not at hnil
        obtain ⟨d, hd, hmark⟩ := hnil
        exact .unterminated hds hd hmark
  · rintro (⟨cut, hbefore, hbyte⟩ | ⟨cut, hbefore, hd, hwide⟩ | ⟨hds, hd, hmark⟩)
    · have hstep := (step_reached_eq_error_iff hbefore.fits).2 (.inl ⟨hbyte, rfl⟩)
      exact .inl ⟨_, _, _, _, cut, foldlM_step_eq_ok_iff.2 ⟨_, hbefore, rfl⟩, hstep⟩
    · have hfit := (exists_not_fits_concat_iff hbefore.fits).1 hwide
      have hstep := (step_reached_eq_error_iff hbefore.fits).2 (.inr ⟨_, hd, hfit, rfl⟩)
      exact .inl ⟨_, _, _, _, cut, foldlM_step_eq_ok_iff.2 ⟨_, hbefore, rfl⟩, hstep⟩
    · have hnil := mt unfinished_eq_nil_iff.1 fun h => Nat.not_le.2 (h _ hd) hmark
      refine .inr ⟨_, foldlM_step_eq_ok_iff.2 ⟨_, hds, rfl⟩, ?_⟩
      rw [finish_reached, if_neg hnil]

/-! ## The numbers of a text -/

theorem natAbs_toInt_lt {n : Nat} (h : n < Word.size) : (toInt n).natAbs < Word.half := by
  have hsize : Word.size = 2 * Word.half := rfl
  unfold toInt
  split <;> omega

theorem toInt_word {g : List Nat} (h : Fits g) : (word g).toInt = toInt (number g) :=
  toInt_ofInt_toInt (number_lt_size h)

theorem decode_eq_ok_iff {t : Text} {values : List Int} :
    decode t = .ok values ↔
      ∃ ds, Spells (Text.utf8 t) ds ∧ (∀ d ∈ ds.getLast?, d < 32) ∧
        values = (groups ds).map fun g => toInt (number g) := by
  rw [← Except.mapError_eq_ok (f := Stop.fault), ← map_readWords_utf8, Except.map_eq_ok]
  simp only [readWords_eq_ok_iff]
  have hwords : ∀ {ds}, Spells (Text.utf8 t) ds →
      ((groups ds).map word).map BitVec.toInt = (groups ds).map fun g => toInt (number g) := by
    intro ds hds
    rw [List.map_map]
    exact List.map_congr_left fun g hg => toInt_word (hds.fits g hg)
  constructor
  · rintro ⟨_, ⟨ds, hds, hlast, rfl⟩, rfl⟩
    exact ⟨ds, hds, hlast, hwords hds⟩
  · rintro ⟨ds, hds, hlast, rfl⟩
    exact ⟨_, ⟨ds, hds, hlast, rfl⟩, hwords hds⟩

theorem decode_eq_error_iff {t : Text} {fault : Fault} :
    decode t = .error fault ↔ FirstFault (Text.utf8 t) fault := by
  have hwords : (decode t).mapError Stop.fault = .error (.fault fault) ↔
      readWords (Text.utf8 t) = .error (.fault fault) := by
    rw [← map_readWords_utf8, Except.map_eq_error]
  rw [← readWords_eq_error_iff, ← hwords, Except.mapError_eq_error]
  simp

/-- **A text is read exactly if it spells numbers of at most 64 bits.** They are read as the groups
of its digits, with the sign in the lowest bit, and lie within 63 bits beside the sign. In any other
text the fault of the first byte that breaks it is found, or that it has no end. The loop on words
reads the same and finds the same, without an overflow. -/
theorem decode_numbers_or_firstFault (t : Text) :
    (∀ values, decode t = .ok values ↔
      ∃ ds, Spells (Text.utf8 t) ds ∧ (∀ d ∈ ds.getLast?, d < 32) ∧
        values = (groups ds).map fun g => toInt (number g)) ∧
    (∀ values, decode t = .ok values → ∀ v ∈ values, v.natAbs < Word.half) ∧
    (∀ fault, decode t = .error fault ↔ FirstFault (Text.utf8 t) fault) ∧
    (readWords (Text.utf8 t)).map (·.map BitVec.toInt) = (decode t).mapError .fault := by
  refine ⟨fun values => decode_eq_ok_iff, fun values h v hv => ?_, fun fault => decode_eq_error_iff,
    map_readWords_utf8 t⟩
  obtain ⟨ds, hds, -, rfl⟩ := decode_eq_ok_iff.1 h
  obtain ⟨g, hg, rfl⟩ := List.mem_map.1 hv
  exact natAbs_toInt_lt (number_lt_size (hds.fits g hg))

/-- The largest numbers of 64 bits are read. One bit more, a fourteenth digit or a character beyond
ASCII is not, and no text ends with a thirteenth digit that is marked. -/
theorem decode_numbers_or_firstFault_widest :
    (decode "A+///////////P////////////P".toList =
        .ok [0, 9223372036854775807, -9223372036854775807] ∧
      ∀ v ∈ [(0 : Int), 9223372036854775807, -9223372036854775807], v.natAbs < Word.half) ∧
    decode "A////////////QA".toList = .error .tooWide ∧
    decode "A////////////gA".toList = .error .tooWide ∧
    decode "A////////////gé".toList = .error (.badDigit 195) ∧
    decode "A////////////g".toList = .error .unterminated := by
  have hread : ∃ ds, Spells (Text.utf8 "A+///////////P////////////P".toList) ds ∧
      (∀ d ∈ ds.getLast?, d < 32) ∧
      [(0 : Int), 9223372036854775807, -9223372036854775807] =
        (groups ds).map fun g => toInt (number g) := by
    refine ⟨0 :: 62 :: (List.replicate 11 63 ++ 15 :: (List.replicate 12 63 ++ [15])),
      ⟨?_, ?_⟩, ?_, ?_⟩ <;> decide +kernel
  have htwelve : Spells (Text.utf8 "A////////////".toList) (0 :: List.replicate 12 63) := by
    constructor <;> decide +kernel
  have hthirteen : Spells (Text.utf8 "A////////////g".toList)
      (0 :: List.replicate 12 63 ++ [32]) := by
    constructor <;> decide +kernel
  have hsixteen : Text.utf8 "A////////////QA".toList =
      Text.utf8 "A////////////".toList ++ 81 :: [65] := rfl
  have hfourteenth : Text.utf8 "A////////////gA".toList =
      Text.utf8 "A////////////g".toList ++ 65 :: [] := rfl
  have hbeyond : Text.utf8 "A////////////gé".toList =
      Text.utf8 "A////////////g".toList ++ 195 :: [169] := rfl
  obtain ⟨hok, hbound, -, -⟩ := decode_numbers_or_firstFault "A+///////////P////////////P".toList
  have hnumbers := (hok _).2 hread
  refine ⟨⟨hnumbers, hbound _ hnumbers⟩, ?_, ?_, ?_, ?_⟩ <;>
    refine ((decode_numbers_or_firstFault _).2.2.1 _).2 ?_
  · have hd : digitOf? 81 = some 16 := rfl
    exact .tooWide hsixteen htwelve hd (by decide +kernel)
  · have hd : digitOf? 65 = some 0 := rfl
    exact .tooWide hfourteenth hthirteen hd (by decide +kernel)
  · exact .badDigit hbeyond hthirteen rfl
  · exact .unterminated hthirteen (by decide : 32 ∈ _) (by decide)

end Provenance.Vlq
