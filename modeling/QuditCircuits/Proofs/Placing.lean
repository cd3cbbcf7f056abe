import QuditCircuits.Circuit.Flatten
import QuditCircuits.Proofs.Operator.Placement

/-!
# What placing an operator computes

An operator placed on wires of a larger register acts on these wires alone: its entry at two states is
the entry of the small operator at the digits that the states show on the wires, if they have the same
digits everywhere else, and zero if they do not (`Operator.place?_entries`).  Wires that cannot carry the
operator are refused, and so is a register that is too large.

Placing into a middle register and then into an outer one is placing once, on the outer wires of the
inner wires (`Operator.place?_place?`).  These are the wires to which opening a block moves the
operations of its body.

Both hold for scalars of any kind, in double precision too, because entries are only moved.
-/

namespace QuditCircuits

variable {θ K : Type} [Zero K]

/-! ## One list of digits for a whole column -/

/-- What was written on the wires before does not matter when they are written again. -/
theorem writeWires_writeWires {digits : List Nat} {wires : List Wire} {values values' : List Nat}
    (hnodup : wires.Nodup) (hlen : values'.length = wires.length) :
    writeWires (writeWires digits wires values) wires values' = writeWires digits wires values' := by
  refine List.ext_getElem? fun wire => ?_
  by_cases hmem : wire ∈ wires
  · rcases Nat.lt_or_ge wire digits.length with hlt | hge
    · obtain ⟨i, hi, rfl⟩ := List.mem_iff_getElem.mp hmem
      have hwire : wires[i]? = some wires[i] := List.getElem?_eq_getElem hi
      have hvalue : values'[i]? = some (values'.get ⟨i, hlen ▸ hi⟩) := List.getElem?_eq_getElem _
      rw [getElem?_writeWires hnodup hwire hvalue (by simpa using hlt),
        getElem?_writeWires hnodup hwire hvalue hlt]
    · rw [List.getElem?_eq_none (by simpa using hge), List.getElem?_eq_none (by simpa using hge)]
  · rw [getElem?_writeWires_of_not_mem hmem, getElem?_writeWires_of_not_mem hmem,
      getElem?_writeWires_of_not_mem hmem]

namespace Operator

/-- The cells of some rows of the small operator in one column.  The digits of each row are written
over those of the row before. -/
def sweepRows (U : Operator K) (wires : List Wire) (R : Register) (col localCol : Nat) :
    List Nat → (digits : List Nat) → List (Nat × Nat × K)
  | [], _ => []
  | localRow :: rest, digits =>
      let written := writeWires digits wires (U.register.digits localRow)
      (R.index written, col, U.entry localRow localCol) :: U.sweepRows wires R col localCol rest written

/-- The cells of one column, with one list of digits for all rows. -/
def sweepColumn (U : Operator K) (wires : List Wire) (R : Register) (col : Nat) :
    List (Nat × Nat × K) :=
  U.sweepRows wires R col (U.register.index (readWires (R.digits col) wires)) (List.range U.dim)
    (R.digits col)

/-- Rows that were written before leave no trace, so the rows may as well be written afresh. -/
theorem sweepRows_eq_map {U : Operator K} {wires : List Wire} (hnodup : wires.Nodup)
    (hlen : wires.length = U.register.width) (R : Register) (col localCol : Nat) (rows : List Nat)
    {digits start : List Nat}
    (hstart : ∀ row, writeWires digits wires (U.register.digits row) =
      writeWires start wires (U.register.digits row)) :
    U.sweepRows wires R col localCol rows digits = rows.map fun row =>
      (R.index (writeWires start wires (U.register.digits row)), col, U.entry row localCol) := by
  -- The digits differ from those at the start, but not in what they are after the next row.
  induction rows generalizing digits with
  | nil => rfl
  | cons row rows ih =>
      have hnext : ∀ next,
          writeWires (writeWires digits wires (U.register.digits row)) wires
            (U.register.digits next) = writeWires start wires (U.register.digits next) := by
        intro next
        rw [writeWires_writeWires hnodup (by simp [hlen]), hstart next]
      rw [sweepRows, List.map_cons, ih hnext, hstart row]

theorem sweepColumn_eq_placedColumn {U : Operator K} {wires : List Wire} (hnodup : wires.Nodup)
    (hlen : wires.length = U.register.width) (R : Register) (col : Nat) :
    U.sweepColumn wires R col = U.placedColumn wires R col :=
  sweepRows_eq_map hnodup hlen R col _ _ fun _ => rfl

/-! ## Entries -/

/-- An operator can be placed exactly on distinct wires, as many as it has, that have the levels of its
own wires, of a register whose dimension is a word.  The entry at a row and a column whose digits agree
off these wires is that of the digits on them, every other entry is zero.  The cells can be filled with
one list of digits for each column. -/
theorem place?_entries (U : Operator K) (wires : List Wire) (R : Register) :
    (wires.length = U.register.width → wires.Nodup →
      (∀ i wire, wires[i]? = some wire → R.levelsOf? wire = U.register.levelsOf? i) →
      R.dimension < wordBound →
      ∃ V, U.place? wires R = .ok V ∧ V.register = R ∧
        (∀ row < R.dimension, ∀ col < R.dimension, V.get? row col =
          if R.AgreeOff wires row col then
            U.get? (U.register.index (readWires (R.digits row) wires))
              (U.register.index (readWires (R.digits col) wires))
          else some 0) ∧
        V = ofCells R ((List.range R.dimension).flatMap (U.sweepColumn wires R))) ∧
    (wires.length ≠ U.register.width ∨ ¬ wires.Nodup ∨ (∃ wire ∈ wires, R.width ≤ wire) ∨
        (∃ i wire levels, wires[i]? = some wire ∧ R.levelsOf? wire = some levels ∧
          U.register.levelsOf? i ≠ some levels) ∨
        wordBound ≤ R.dimension →
      ∃ e, U.place? wires R = .error e) := by
  constructor
  · intro hlen hnodup hlevels hword
    have h : Placement U.register R wires := Placement.iff_levelsOf?.mpr ⟨hlen, hnodup, hlevels⟩
    refine ⟨U.place wires R, place?_eq_ok h hword, rfl, fun row hrow col hcol => ?_, ?_⟩
    · have hentry := entry_place h ⟨row, hrow⟩ ⟨col, hcol⟩
      rw [get?_eq_some_entry _ hrow hcol, hentry, apply_ite some]
      congr 1
      exact (U.get?_eq_some_entry (h.restrict _).isLt (h.restrict _).isLt).symm
    · have hcolumn : U.placedColumn wires R = U.sweepColumn wires R :=
        funext fun col => (sweepColumn_eq_placedColumn hnodup hlen R col).symm
      rw [place, hcolumn]
  · intro hbad
    refine exists_place?_eq_error_iff.mpr ?_
    rintro ⟨h, hword⟩
    rcases hbad with hlen | hnodup | ⟨wire, hwire, hge⟩ | ⟨i, wire, levels, hwire, hon, hown⟩ | hlarge
    · exact hlen h.length_eq
    · exact hnodup h.nodup
    · exact Nat.not_lt_of_le hge (h.lt_width hwire)
    · exact hown ((h.levelsOf?_eq hwire).symm.trans hon)
    · exact Nat.not_lt_of_le hlarge hword

end Operator

/-- An operator on a wire of three levels and a wire of two, whose entries show row and column. -/
def tabulated : Operator Nat :=
  .ofFn ⟨[3, 2], by decide⟩ fun row col => 10 * row + col

/-- A wire of two, one of four and one of three levels. -/
def mixedRegister : Register :=
  ⟨[2, 4, 3], by decide⟩

theorem place?_entries_tabulated :
    mixedRegister.digits 18 = [1, 2, 0] ∧ mixedRegister.digits 8 = [0, 2, 2] ∧
      mixedRegister.digits 5 = [0, 1, 2] ∧
      (∃ V, tabulated.place? [2, 0] mixedRegister = .ok V ∧ V.get? 18 8 = some 14 ∧
        V.get? 18 5 = some 0) ∧
      ∃ e, tabulated.place? [0, 2] mixedRegister = .error e := by
  have hlevels : ∀ i wire, [2, 0][i]? = some wire →
      mixedRegister.levelsOf? wire = tabulated.register.levelsOf? i := by
    intro i wire hwire
    match i with
    | 0 => cases hwire; rfl
    | 1 => cases hwire; rfl
    | i + 2 => simp at hwire
  obtain ⟨V, hV, -, hentries, -⟩ := (tabulated.place?_entries [2, 0] mixedRegister).1 rfl
    (by decide) hlevels (by decide)
  refine ⟨rfl, rfl, rfl, ⟨V, hV, ?_, ?_⟩, ?_⟩
  · rw [hentries 18 (by decide) 8 (by decide)]
    rfl
  · rw [hentries 18 (by decide) 5 (by decide)]
    rfl
  · exact (tabulated.place?_entries [0, 2] mixedRegister).2
      (.inr (.inr (.inr (.inl ⟨0, 0, 2, rfl, rfl, by decide⟩))))

/-! ## Placing twice -/

namespace Operator

/-- An operator that is placed in a placed register acts on the outer wires of its wires. -/
theorem place_place {U : Operator K} {Q R : Register} {inner outer : List Wire}
    (hin : Placement U.register Q inner) (hout : Placement Q R outer) :
    (U.place inner Q).place outer R = U.place (inner.map fun wire => outer.getD wire wire) R := by
  refine eq_of_entry_eq rfl rfl fun (row col : Fin R.dimension) => ?_
  have houter : Placement (U.place inner Q).register R outer := hout
  have htwice : ((U.place inner Q).place outer R).entry row col =
      if R.AgreeOff outer row col then
        (U.place inner Q).entry (hout.restrict row) (hout.restrict col) else 0 :=
    entry_place houter row col
  rw [htwice, entry_place hin, entry_place (hin.trans hout), Placement.restrict_trans hin hout,
    Placement.restrict_trans hin hout, Placement.ite_agreeOff_trans hin hout]

/-- Placing into a middle register and then into an outer one is placing once, with each wire on the
outer wire of its inner wire.  Opening a block moves the operations of its body to these wires. -/
theorem place?_place? {U : Operator K} {Q R : Register} {inner outer : List Wire}
    (hin : Placement U.register Q inner) (hout : Placement Q R outer)
    (hword : R.dimension < wordBound) :
    ∃ V W, U.place? inner Q = .ok V ∧ V.place? outer R = .ok W ∧
      (∀ wires : List Wire, wires.map some = inner.map (fun wire => outer[wire]?) →
        U.place? wires R = .ok W) ∧
      ∀ (op : Operation θ) (params : List θ), op.wires = inner →
        U.place? (op.rebind outer params).wires R = .ok W := by
  have honce : U.place? (inner.map fun wire => outer.getD wire wire) R =
      .ok ((U.place inner Q).place outer R) := by
    rw [place_place hin hout]
    exact place?_eq_ok (hin.trans hout) hword
  have houter : Placement (U.place inner Q).register R outer := hout
  refine ⟨U.place inner Q, (U.place inner Q).place outer R,
    place?_eq_ok hin (hout.dimension_lt hword), place?_eq_ok houter hword, fun wires hwires => ?_, ?_⟩
  · have hsame : wires = inner.map fun wire => outer.getD wire wire := by
      refine List.map_injective_iff.mpr (Option.some_injective _) ?_
      rw [hwires, hin.map_some_map_getD hout]
    rw [hsame, honce]
  · rintro op params rfl
    exact honce

end Operator

/-- A wire of two, one of three, one of five and one of four levels. -/
def outerRegister : Register :=
  ⟨[2, 3, 5, 4], by decide⟩

theorem place?_place?_tabulated :
    Placement tabulated.register mixedRegister [2, 0] ∧
      Placement mixedRegister outerRegister [0, 3, 1] ∧
      (⟨.primitive (.qubit .cx), [2, 0], []⟩ : Operation Nat).rebind [0, 3, 1] [] =
        ⟨.primitive (.qubit .cx), [1, 0], []⟩ ∧
      ∃ V W, tabulated.place? [2, 0] mixedRegister = .ok V ∧
        V.place? [0, 3, 1] outerRegister = .ok W ∧
        tabulated.place? [1, 0] outerRegister = .ok W := by
  have hin : Placement tabulated.register mixedRegister [2, 0] := ⟨by decide, rfl⟩
  have hout : Placement mixedRegister outerRegister [0, 3, 1] := ⟨by decide, rfl⟩
  have hword : outerRegister.dimension < wordBound := by decide
  obtain ⟨V, W, hV, hW, honce, -⟩ := Operator.place?_place? (θ := Nat) hin hout hword
  exact ⟨hin, hout, rfl, V, W, hV, hW, honce [1, 0] rfl⟩

end QuditCircuits
