import CodeImage.Proofs.InPlace
import CodeImage.Proofs.Instruction

namespace CodeImage

-- A wider form has operands of the same roles, and floats in the same places.
theorem OpcodeTable.wider_alike : ∀ row ∈ opcodeTable.toList, ∀ code ∈ row.wider, ∀ long ∈ opcodeTable.toList[code]?,
    long.slots.map (·.role) = row.slots.map (·.role) ∧
      long.slots.map (·.kind == .double) = row.slots.map (·.kind == .double) := by
  decide +kernel

-- No two rows have the same wider form.
theorem OpcodeTable.nodup_wider : (opcodeTable.toList.filterMap OpcodeRow.wider).Nodup := by decide +kernel

namespace Opcode

variable {op long other : Opcode}

theorem getElem?_row (op : Opcode) : opcodeTable.toList[op.code.val]? = some op.row := by
  have inside : op.code.val < opcodeTable.size := by rw [opcodeTable_size]; exact op.code.isLt
  simp [row, inside]

theorem wider?_exact : op.wider? = some long ↔ op.row.wider = some long.code.val := by
  unfold wider? ofNat?
  constructor
  · intro found
    obtain ⟨code, wider, made⟩ := Option.bind_eq_some_iff.mp found
    split at made
    · cases made
      exact wider
    · cases made
  · intro wider
    simp [wider]

theorem alike_of_wider? (found : op.wider? = some long) :
    long.slots.map (·.role) = op.slots.map (·.role) ∧
      long.slots.map (·.kind == .double) = op.slots.map (·.kind == .double) :=
  OpcodeTable.wider_alike op.row (List.mem_of_getElem? op.getElem?_row) _ (wider?_exact.mp found) _ long.getElem?_row

theorem not_wider?_of_lt (order : op.code < other.code) (first : op.wider? = some long) : other.wider? ≠ some long := by
  intro second
  obtain ⟨inside, here⟩ := List.getElem?_eq_some_iff.mp op.getElem?_row
  obtain ⟨inside', there⟩ := List.getElem?_eq_some_iff.mp other.getElem?_row
  have apart := List.pairwise_iff_getElem.mp (List.pairwise_filterMap.mp OpcodeTable.nodup_wider) _ _ inside inside' order
  rw [here, there] at apart
  exact apart _ (wider?_exact.mp first) _ (wider?_exact.mp second) rfl

theorem eq_of_wider? (first : op.wider? = some long) (second : other.wider? = some long) : op = other := by
  rcases lt_trichotomy op.code other.code with below | same | above
  · exact absurd second (not_wider?_of_lt below first)
  · cases op
    cases other
    cases same
    rfl
  · exact absurd first (not_wider?_of_lt above second)

-- The form after `n` steps to a wider one.
def widened (op : Opcode) : Nat → Option Opcode
  | 0 => some op
  | n + 1 => (op.widened n).bind wider?

theorem widened_zero (op : Opcode) : op.widened 0 = some op := rfl

theorem widened_of_wider? (found : op.wider? = some long) (n : Nat) : op.widened (n + 1) = long.widened n := by
  induction n with
  | zero => simp [widened, found]
  | succ n ih => rw [widened, ih, widened]

theorem widened_of_last (last : op.wider? = none) (n : Nat) : op.widened (n + 1) = none := by
  induction n with
  | zero => simp [widened, last]
  | succ n ih => rw [widened, ih, Option.bind_none]

theorem eq_of_widened_of_last (last : op.wider? = none) {n : Nat} (reached : op.widened n = some other) : other = op := by
  cases n with
  | zero =>
    cases reached
    rfl
  | succ n =>
    rw [widened_of_last last] at reached
    cases reached

-- A form is the narrowest itself, or lies on the way from the form after it.
theorem widened_cases (found : op.wider? = some long) {n : Nat} (reached : op.widened n = some other) :
    other = op ∨ ∃ m, long.widened m = some other := by
  cases n with
  | zero =>
    cases reached
    exact .inl rfl
  | succ n => exact .inr ⟨n, (widened_of_wider? found n).symm.trans reached⟩

-- Codes ascend on the way to wider forms, so it comes to an end.
theorem widened_ends (op : Opcode) : ∃ n, op.widened n = none := by
  fun_induction widenings op with
  | case1 op last => exact ⟨1, widened_of_last last 0⟩
  | case2 op long found _ ih =>
    obtain ⟨n, ends⟩ := ih
    exact ⟨n + 1, (widened_of_wider? found n).trans ends⟩

theorem mem_widenings_self (op : Opcode) : op ∈ op.widenings := by
  unfold widenings
  split
  · exact List.mem_singleton_self op
  · exact List.mem_cons_self

theorem code_le_of_mem_widenings (member : other ∈ op.widenings) : op.code ≤ other.code := by
  fun_induction widenings op with
  | case1 op last => rw [List.mem_singleton.mp member]
  | case2 op long found later ih =>
    rcases List.mem_cons.mp member with rfl | more
    · exact le_refl _
    · exact le_of_lt (lt_of_lt_of_le later (ih more))

-- The wider forms of a form are forms of the same instruction.
theorem mem_widenings_of_wider? {short : Opcode} (found : op.wider? = some long) (member : op ∈ short.widenings) :
    long ∈ short.widenings := by
  fun_induction widenings short with
  | case1 short last =>
    rw [List.mem_singleton.mp member, last] at found
    cases found
  | case2 short next later _ ih =>
    rcases List.mem_cons.mp member with rfl | more
    · cases later.symm.trans found
      exact List.mem_cons_of_mem _ (mem_widenings_self long)
    · exact List.mem_cons_of_mem _ (ih more)

-- And the way to a wider form leads through the one narrower form that it has.
theorem eq_or_mem_widenings {short : Opcode} (found : op.wider? = some long) (member : long ∈ short.widenings) :
    short = long ∨ op ∈ short.widenings := by
  fun_induction widenings short with
  | case1 short last => exact .inl (List.mem_singleton.mp member).symm
  | case2 short next later _ ih =>
    rcases List.mem_cons.mp member with rfl | more
    · exact .inl rfl
    · rcases ih more with rfl | inside
      · rw [eq_of_wider? found later]
        exact .inr List.mem_cons_self
      · exact .inr (List.mem_cons_of_mem _ inside)

theorem mem_all (op : Opcode) : op ∈ all := List.mem_map.mpr ⟨op.code, List.mem_finRange _, rfl⟩

theorem pairwise_all : all.Pairwise fun a b => a.code < b.code :=
  List.pairwise_map.mpr (List.pairwise_lt_finRange opcodeCount)

theorem canonical_eq (op : Opcode) : op.canonical = (all.find? fun short => short.widenings.contains op).getD op := by
  have place : all[op.code.val]? = some op := by
    simp [all]
  simp [canonical, narrowest, place]

-- The first form that leads to `op` is also the first that leads to the wider form: those that do not lead to `op` are
-- the wider form itself and later ones.
theorem canonical_of_wider? (found : op.wider? = some long) : long.canonical = op.canonical := by
  obtain ⟨first, leads⟩ : ∃ first, all.find? (fun short => short.widenings.contains op) = some first :=
    Option.isSome_iff_exists.mp (List.find?_isSome.mpr ⟨op, op.mem_all, by simpa using op.mem_widenings_self⟩)
  have same : all.find? (fun short => short.widenings.contains long) = some first := by
    rw [List.find?_eq_some_iff_append] at leads ⊢
    obtain ⟨member, before, after, split, none⟩ := leads
    have inside : op ∈ first.widenings := by simpa using member
    refine ⟨by simpa using mem_widenings_of_wider? found inside, before, after, split, ?_⟩
    intro short earlier
    have missed : op ∉ short.widenings := by simpa using none short earlier
    have absent : long ∉ short.widenings := by
      intro more
      rcases eq_or_mem_widenings found more with rfl | inside
      · have order := pairwise_all
        rw [split, List.pairwise_append] at order
        have above := order.2.2 _ earlier first List.mem_cons_self
        have below := lt_of_le_of_lt (code_le_of_mem_widenings inside) (code_lt_of_wider? found)
        exact absurd above (lt_asymm below)
      · exact missed inside
    simpa using absent
  rw [canonical_eq, canonical_eq, leads, same]
  rfl

-- What the forms of an instruction have in common.
theorem alike_of_widened {n : Nat} (reached : op.widened n = some other) :
    other.slots.map (·.role) = op.slots.map (·.role) ∧
      other.slots.map (·.kind == .double) = op.slots.map (·.kind == .double) ∧ other.canonical = op.canonical := by
  induction n generalizing other with
  | zero =>
    cases reached
    exact ⟨rfl, rfl, rfl⟩
  | succ n ih =>
    obtain ⟨middle, before, found⟩ := Option.bind_eq_some_iff.mp reached
    obtain ⟨roles, floats, family⟩ := ih before
    obtain ⟨roles', floats'⟩ := alike_of_wider? found
    exact ⟨roles'.trans roles, floats'.trans floats, (canonical_of_wider? found).trans family⟩

theorem role_of_widened {n : Nat} (reached : op.widened n = some other) (index : Nat) :
    other.role index = op.role index := by
  have roles := congrArg (fun roles : List OperandRole => roles[index]?) (alike_of_widened reached).1
  simp only [List.getElem?_map] at roles
  rw [role, role, roles]

theorem length_kinds (op : Opcode) : op.kinds.length = op.operandCount := List.length_map _

theorem operandCount_of_widened {n : Nat} (reached : op.widened n = some other) : other.operandCount = op.operandCount := by
  have count := congrArg List.length (alike_of_widened reached).1
  simpa [operandCount] using count

-- Every operand has room in this form.
def Accepts (op : Opcode) (operands : List Operand) : Prop :=
  List.Forall₂ (fun kind value => kind.fits value = true) op.kinds operands

-- The first form on the way to wider ones that has room for the operands.
def FirstFit (op : Opcode) (operands : List Operand) (form : Opcode) : Prop :=
  ∃ n, op.widened n = some form ∧ form.Accepts operands ∧
    ∀ m < n, ∀ earlier, op.widened m = some earlier → ¬ earlier.Accepts operands

-- Why operands have no room: a float where some form stores an integer, or an integer that the last form cannot hold.
inductive Misfit (op : Opcode) (operands : List Operand) : ImageError → Prop where
  | kind {n index : Nat} {form : Opcode} {kind : OperandKind} {x : Binary64} (reached : op.widened n = some form)
      (slot : form.kinds[index]? = some kind) (integer : kind ≠ .double) (float : operands[index]? = some (.float x)) :
      Misfit op operands (.operandKind form index)
  | range {n index : Nat} {form : Opcode} {kind : OperandKind} {v : Int} (reached : op.widened n = some form)
      (last : form.wider? = none) (slot : form.kinds[index]? = some kind) (value : operands[index]? = some (.int v))
      (large : kind.fits (.int v) = false) : Misfit op operands (.operandOutOfRange form index (.int v))

variable {operands : List Operand} {form : Opcode}

theorem FirstFit.unique {form' : Opcode} (first : op.FirstFit operands form) (second : op.FirstFit operands form') :
    form = form' := by
  obtain ⟨n, reached, accepts, earliest⟩ := first
  obtain ⟨n', reached', accepts', earliest'⟩ := second
  rcases Nat.lt_trichotomy n n' with less | rfl | more
  · exact absurd accepts (earliest' n less form reached)
  · exact Option.some.inj (reached.symm.trans reached')
  · exact absurd accepts' (earliest n' more form' reached')

theorem FirstFit.of_wider? (found : op.wider? = some long) (refused : ¬ op.Accepts operands)
    (first : long.FirstFit operands form) : op.FirstFit operands form := by
  obtain ⟨n, reached, accepts, earliest⟩ := first
  refine ⟨n + 1, (widened_of_wider? found n).trans reached, accepts, ?_⟩
  intro m below earlier passed
  cases m with
  | zero =>
    cases passed
    exact refused
  | succ m => exact earliest m (by omega) earlier ((widened_of_wider? found m).symm.trans passed)

theorem Misfit.of_wider? (found : op.wider? = some long) {e : ImageError} (misfit : long.Misfit operands e) :
    op.Misfit operands e := by
  cases misfit with
  | @kind n _ _ _ _ reached slot integer float =>
    exact .kind ((widened_of_wider? found n).trans reached) slot integer float
  | @range n _ _ _ _ reached last slot value large =>
    exact .range ((widened_of_wider? found n).trans reached) last slot value large

-- No form has room for a float in the place of an integer.
theorem not_accepts_of_float {index n : Nat} {kind : OperandKind} {x : Binary64} (slot : op.kinds[index]? = some kind)
    (integer : kind ≠ .double) (float : operands[index]? = some (.float x)) (reached : op.widened n = some form) :
    ¬ form.Accepts operands := by
  intro accepts
  have floats := congrArg (fun floats : List Bool => floats[index]?) (alike_of_widened reached).2.1
  simp only [kinds, List.getElem?_map] at slot floats
  obtain ⟨here, found, rfl⟩ := Option.map_eq_some_iff.mp slot
  rw [found] at floats
  obtain ⟨there, found', same⟩ := Option.map_eq_some_iff.mp floats
  have room : form.kinds[index]? = some there.kind := by simp [kinds, found']
  have float' : there.kind = .double := by simpa [OperandKind.fits] using getElem?_of_forall₂ accepts room float
  simp [float', integer] at same

end Opcode

namespace Instruction

-- What looking for an operand without room finds.
theorem firstMisfit_none_iff {opcode : Opcode} {index : Nat} {kinds : List OperandKind} {values : List Operand}
    (count : values.length = kinds.length) :
    firstMisfit opcode index kinds values = .ok none ↔
      List.Forall₂ (fun kind value => kind.fits value = true) kinds values := by
  induction kinds generalizing index values with
  | nil =>
    cases values with
    | nil => simp [firstMisfit]
    | cons value values => simp at count
  | cons kind kinds ih =>
    cases values with
    | nil => simp at count
    | cons value values =>
      rw [firstMisfit, List.forall₂_cons]
      split
      · next float =>
        cases value with
        | int v => simp [Operand.isFloat] at float
        | float x =>
          have integer : kind ≠ .double := by simpa [Operand.isFloat] using float
          simp [OperandKind.fits, integer]
      · split
        · next fits => simp [fits, ih (by simpa using count)]
        · next misfit => simp [misfit]

theorem firstMisfit_some {opcode : Opcode} {start index : Nat} {kinds : List OperandKind} {values : List Operand}
    {value : Operand} (found : firstMisfit opcode start kinds values = .ok (some (index, value))) :
    ∃ k kind v, index = start + k ∧ kinds[k]? = some kind ∧ values[k]? = some (.int v) ∧ value = .int v ∧
      kind.fits (.int v) = false := by
  induction kinds generalizing start values with
  | nil => simp [firstMisfit] at found
  | cons kind kinds ih =>
    cases values with
    | nil => simp [firstMisfit] at found
    | cons first rest =>
      rw [firstMisfit] at found
      split at found
      · cases found
      · next integer =>
        split at found
        · obtain ⟨k, kind', v, rfl, slot, here, same, misfit⟩ := ih found
          exact ⟨k + 1, kind', v, by omega, slot, here, same, misfit⟩
        · next misfit =>
          cases found
          cases value with
          | int v => exact ⟨0, kind, v, rfl, rfl, rfl, rfl, by simpa using misfit⟩
          | float x =>
            have float : kind = .double := by simpa [Operand.isFloat] using integer
            simp [OperandKind.fits, float] at misfit

theorem firstMisfit_error {opcode : Opcode} {start : Nat} {kinds : List OperandKind} {values : List Operand}
    {e : ImageError} (failed : firstMisfit opcode start kinds values = .error e) :
    ∃ k kind x, e = .operandKind opcode (start + k) ∧ kinds[k]? = some kind ∧ kind ≠ .double ∧
      values[k]? = some (.float x) := by
  induction kinds generalizing start values with
  | nil => simp [firstMisfit] at failed
  | cons kind kinds ih =>
    cases values with
    | nil => simp [firstMisfit] at failed
    | cons first rest =>
      rw [firstMisfit] at failed
      split at failed
      · next float =>
        cases failed
        cases first with
        | int v => simp [Operand.isFloat] at float
        | float x => exact ⟨0, kind, x, rfl, rfl, by simpa [Operand.isFloat] using float, rfl⟩
      · split at failed
        · obtain ⟨k, kind', x, rfl, slot, integer, here⟩ := ih failed
          exact ⟨k + 1, kind', x, by rw [Nat.add_assoc, Nat.add_comm 1 k], slot, integer, here⟩
        · cases failed

-- Looking for a form finds the first one with room, or tells why there is none.
theorem fit_cases {opcode : Opcode} {operands : List Operand} (count : operands.length = opcode.operandCount) :
    (∃ form, fit opcode operands = .ok form ∧ opcode.FirstFit operands form) ∨
      ∃ e, fit opcode operands = .error e ∧ opcode.Misfit operands e ∧
        ∀ n form, opcode.widened n = some form → ¬ form.Accepts operands := by
  have slots : operands.length = opcode.kinds.length := count.trans opcode.length_kinds.symm
  fun_induction fit opcode operands with
  | case1 opcode e failed =>
    obtain ⟨k, kind, x, rfl, slot, integer, float⟩ := firstMisfit_error failed
    rw [Nat.zero_add]
    refine .inr ⟨_, rfl, .kind opcode.widened_zero slot integer float, ?_⟩
    intro n form reached
    exact Opcode.not_accepts_of_float slot integer float reached
  | case2 opcode none =>
    refine .inl ⟨opcode, rfl, 0, rfl, (firstMisfit_none_iff slots).mp none, ?_⟩
    intro m below
    omega
  | case3 opcode index value found last =>
    obtain ⟨k, kind, v, rfl, slot, here, rfl, misfit⟩ := firstMisfit_some found
    rw [Nat.zero_add]
    refine .inr ⟨_, rfl, .range opcode.widened_zero last slot here misfit, ?_⟩
    intro n form reached accepts
    rw [Opcode.eq_of_widened_of_last last reached] at accepts
    rw [getElem?_of_forall₂ accepts slot here] at misfit
    cases misfit
  | case4 opcode index value found long wider _ ih =>
    have refused : ¬ opcode.Accepts operands := by
      intro accepts
      rw [(firstMisfit_none_iff slots).mpr accepts] at found
      cases found
    have count' : operands.length = long.operandCount := by
      rw [count]
      exact (Opcode.operandCount_of_widened (Opcode.widened_of_wider? wider 0)).symm
    rcases ih count' (count'.trans long.length_kinds.symm) with ⟨form, fits, first⟩ | ⟨e, failed, misfit, none⟩
    · exact .inl ⟨form, fits, first.of_wider? wider refused⟩
    · refine .inr ⟨e, failed, misfit.of_wider? wider, ?_⟩
      intro n form reached
      rcases Opcode.widened_cases wider reached with rfl | ⟨m, later⟩
      · exact refused
      · exact none m form later

theorem fit_exact {opcode form : Opcode} {operands : List Operand} (count : operands.length = opcode.operandCount) :
    fit opcode operands = .ok form ↔ opcode.FirstFit operands form := by
  rcases fit_cases count with ⟨form', fits, first⟩ | ⟨e, failed, -, none⟩
  · rw [fits]
    constructor
    · intro same
      cases same
      exact first
    · intro other
      rw [first.unique other]
  · rw [failed]
    constructor
    · intro same
      cases same
    · rintro ⟨n, reached, accepts, -⟩
      exact absurd accepts (none n form reached)

-- What an instruction is once it is encoded: the first form with room for its operands, and the values as they are stored.
structure Emits (insn form : Instruction) : Prop where
  count : insn.operands.length = insn.opcode.operandCount
  first : insn.opcode.FirstFit insn.operands form.opcode
  values : form.operands = List.zipWith OperandKind.stored form.opcode.kinds insn.operands

theorem writeOperands_stored (kinds : List OperandKind) (values : List Operand) :
    writeOperands ByteArray.empty kinds (List.zipWith OperandKind.stored kinds values) =
      writeOperands ByteArray.empty kinds values := by
  induction kinds generalizing values with
  | nil => simp [writeOperands]
  | cons kind kinds ih =>
    cases values with
    | nil => simp [writeOperands]
    | cons value values =>
      rw [List.zipWith_cons_cons, writeOperands_cons, writeOperands_cons, ih, OperandKind.write_stored]

theorem Emits.stored {insn form : Instruction} (emits : insn.Emits form) : form.Stored := by
  obtain ⟨-, -, accepts, -⟩ := emits.first
  rw [Stored, emits.values]
  exact forall₂_zipWith_right accepts fun kind _ value fits => OperandKind.stores_stored fits

-- What was decoded is encoded as it was.
theorem Stored.emits {insn : Instruction} (stored : insn.Stored) : insn.Emits insn := by
  have accepts : insn.opcode.Accepts insn.operands := stored.imp fun kind value stores => stores.1
  refine ⟨?_, ⟨0, rfl, accepts, fun m below => absurd below (Nat.not_lt_zero m)⟩, ?_⟩
  · exact stored.length_eq.symm.trans insn.opcode.length_kinds
  · unfold Stored at stored
    generalize insn.opcode.kinds = kinds at stored ⊢
    generalize insn.operands = values at stored ⊢
    induction stored with
    | nil => rfl
    | cons stores _ ih => rw [List.zipWith_cons_cons, stores.2, ← ih]

-- Encoding appends the bytes of what the instruction becomes.
theorem encodeOnto_exact {out next : ByteArray} {insn : Instruction} {opcode : Opcode} :
    encodeOnto out insn = .ok (next, opcode) ↔
      ∃ form : Instruction, insn.Emits form ∧ opcode = form.opcode ∧ next = out ++ form.bytes := by
  have appended (form : Opcode) : writeOperands (out.push form.byte) form.kinds insn.operands =
      out ++ (⟨form, List.zipWith OperandKind.stored form.kinds insn.operands⟩ : Instruction).bytes := by
    rw [bytes_eq, writeOperands_stored, writeOperands_eq_append, push_eq_append, ByteArray.append_assoc]
  constructor
  · intro done
    unfold encodeOnto at done
    split at done
    · next count =>
      split at done
      · cases done
      · next form fits =>
        cases done
        exact ⟨⟨opcode, _⟩, ⟨count, (fit_exact count).mp fits, rfl⟩, rfl, appended opcode⟩
    · cases done
  · rintro ⟨⟨form, operands⟩, ⟨count, first, values⟩, rfl, rfl⟩
    dsimp only at first values
    simp only [encodeOnto, count, (fit_exact count).mpr first, if_true, values, appended]

-- The distances of operands from the code byte, the first of them given.
def offsetsFrom (start : Nat) : List OperandKind → List Nat
  | [] => []
  | kind :: kinds => start :: offsetsFrom (start + kind.width) kinds

theorem foldl_offsets (kinds : List OperandKind) (front : List Nat) (start : Nat) :
    (kinds.foldl (fun (list, pos) kind => (list ++ [pos], pos + kind.width)) (front, start)).1 =
      front ++ offsetsFrom start kinds := by
  induction kinds generalizing front start with
  | nil => simp [offsetsFrom]
  | cons kind kinds ih => simp [offsetsFrom, ih]

theorem offsets_eq (op : Opcode) : op.offsets = offsetsFrom 1 op.kinds := foldl_offsets op.kinds [] 1

-- Operands at their offsets from `start`.
def putOperands? (out : ByteArray) (start : Nat) : List OperandKind → List Nat → List Operand → Option ByteArray
  | kind :: kinds, offset :: offsets, value :: values =>
    (copyAt? out (start + offset) (kind.write ByteArray.empty value)).bind fun out => putOperands? out start kinds offsets values
  | _, _, _ => some out

-- Encoding into a buffer that holds other code already. It grows by zeros when the form is known, and code byte and
-- operands are put in their places; a place that is not in the buffer would leave no result.
def encodeInto? (out : ByteArray) (insn : Instruction) : Option (ByteArray × Except ImageError Opcode) :=
  if insn.operands.length = insn.opcode.operandCount then
    match fit insn.opcode insn.operands with
    | .error e => some (out, .error e)
    | .ok opcode => do
      let grown ← copyAt? (paddedTo out (out.size + opcode.width)) out.size (ByteArray.empty.push opcode.byte)
      let filled ← putOperands? grown out.size opcode.kinds opcode.offsets insn.operands
      return (filled, .ok opcode)
  else some (out, .error (.operandCount insn.opcode insn.opcode.operandCount insn.operands.length))

theorem putOperands?_end {front : ByteArray} {start offset n : Nat} {kinds : List OperandKind} {values : List Operand}
    (place : front.size = start + offset) (count : values.length = kinds.length)
    (room : front.size + total (kinds.map OperandKind.width) ≤ n) :
    putOperands? (paddedTo front n) start kinds (offsetsFrom offset kinds) values =
      some (paddedTo (front ++ writeOperands ByteArray.empty kinds values) n) := by
  induction kinds generalizing front offset values with
  | nil =>
    cases values with
    | nil => simp [putOperands?, writeOperands]
    | cons value values => simp at count
  | cons kind kinds ih =>
    cases values with
    | nil => simp at count
    | cons value values =>
      have split : total ((kind :: kinds).map OperandKind.width) = kind.width + total (kinds.map OperandKind.width) := rfl
      have size : (front ++ kind.write ByteArray.empty value).size = front.size + kind.width := by
        simp [ByteArray.size_append]
      have copied : copyAt? (paddedTo front n) front.size (kind.write ByteArray.empty value) =
          some (paddedTo (front ++ kind.write ByteArray.empty value) n) := copyAt?_end (by simp; omega)
      rw [offsetsFrom, putOperands?, ← place, copied, Option.bind_some, writeOperands_cons, ← ByteArray.append_assoc]
      exact ih (by omega) (by simpa using count) (by omega)

-- Encoding in place leaves what appending gives, and a buffer as it was if there is no encoding.
theorem encodeInto?_eq (out : ByteArray) (insn : Instruction) :
    encodeInto? out insn = some (match encodeOnto out insn with
      | .ok (next, opcode) => (next, .ok opcode)
      | .error e => (out, .error e)) := by
  unfold encodeInto? encodeOnto
  by_cases count : insn.operands.length = insn.opcode.operandCount
  · rw [if_pos count, if_pos count]
    cases fits : fit insn.opcode insn.operands with
    | error e => rfl
    | ok opcode =>
      obtain ⟨-, -, accepts, -⟩ := (fit_exact count).mp fits
      have slots : insn.operands.length = opcode.kinds.length := accepts.length_eq.symm
      have byte : (ByteArray.empty.push opcode.byte).size = 1 := rfl
      have coded : copyAt? (paddedTo out (out.size + opcode.width)) out.size (ByteArray.empty.push opcode.byte) =
          some (paddedTo (out ++ ByteArray.empty.push opcode.byte) (out.size + opcode.width)) := by
        apply copyAt?_end
        simp [Opcode.width, byte]
      have whole : (out ++ ByteArray.empty.push opcode.byte ++
          writeOperands ByteArray.empty opcode.kinds insn.operands).size = out.size + opcode.width := by
        simp [Opcode.width, byte, size_writeOperands slots]
        omega
      have filled : putOperands? (paddedTo (out ++ ByteArray.empty.push opcode.byte) (out.size + opcode.width)) out.size
          opcode.kinds opcode.offsets insn.operands =
            some (writeOperands (out.push opcode.byte) opcode.kinds insn.operands) := by
        rw [offsets_eq, putOperands?_end (by simp [byte]) slots (by simp [Opcode.width, byte]; omega), ← whole, paddedTo_size,
          writeOperands_eq_append (out.push _), push_eq_append out]
      simp only [coded, filled, Option.bind_eq_bind, Option.bind_some]
      rfl
  · rw [if_neg count, if_neg count]

-- Why an instruction has no encoding.
def Refused (insn : Instruction) (e : ImageError) : Prop :=
  (insn.operands.length ≠ insn.opcode.operandCount ∧
    e = .operandCount insn.opcode insn.opcode.operandCount insn.operands.length) ∨ insn.opcode.Misfit insn.operands e

theorem refused_of_error {out : ByteArray} {insn : Instruction} {e : ImageError} (failed : encodeOnto out insn = .error e) :
    insn.Refused e := by
  unfold encodeOnto at failed
  by_cases count : insn.operands.length = insn.opcode.operandCount
  · rw [if_pos count] at failed
    rcases fit_cases count with ⟨opcode, fits, -⟩ | ⟨e', misfits, misfit, -⟩
    · rw [fits] at failed
      cases failed
    · rw [misfits] at failed
      cases failed
      exact .inr misfit
  · rw [if_neg count] at failed
    cases failed
    exact .inl ⟨count, rfl⟩

-- An instruction is encoded in the first of its forms that has room for its operands.
theorem encoded_in_first_fit (insn : Instruction) (out : ByteArray) :
    -- The wider forms come to an end.
    (∃ n, insn.opcode.widened n = none) ∧
    -- There is an encoding exactly if the operands are as many as they should be and some form has room for all of them.
    ((∃ next opcode, encodeOnto out insn = .ok (next, opcode)) ↔
      insn.operands.length = insn.opcode.operandCount ∧
        ∃ n form, insn.opcode.widened n = some form ∧ form.Accepts insn.operands) ∧
    -- It is that of the first such form. Its bytes, as many as the form is wide, follow what the buffer holds; the form is
    -- of the instruction's family and its operands have the same roles.
    (∀ next opcode, encodeOnto out insn = .ok (next, opcode) →
      insn.opcode.FirstFit insn.operands opcode ∧ encodeInto? out insn = some (next, .ok opcode) ∧
      (∃ part, next = out ++ part ∧ part.size = opcode.width ∧ decodeAt part 0 =
        .ok ⟨0, opcode.width, opcode, List.zipWith OperandKind.stored opcode.kinds insn.operands⟩) ∧
      insn.opcode.sameFamily opcode = true ∧ opcode.operandCount = insn.opcode.operandCount ∧
      ∀ index, opcode.role index = insn.opcode.role index) ∧
    -- Otherwise the error is one of number, kind or range, and the buffer stays as it is.
    (∀ e, encodeOnto out insn = .error e → insn.Refused e ∧ encodeInto? out insn = some (out, .error e)) := by
  refine ⟨insn.opcode.widened_ends, ?_, ?_, ?_⟩
  · constructor
    · rintro ⟨next, opcode, done⟩
      obtain ⟨form, ⟨count, ⟨n, reached, accepts, -⟩, -⟩, -, -⟩ := encodeOnto_exact.mp done
      exact ⟨count, n, form.opcode, reached, accepts⟩
    · rintro ⟨count, n, form, reached, accepts⟩
      rcases fit_cases count with ⟨opcode, -, first⟩ | ⟨-, -, -, none⟩
      · have emits : insn.Emits ⟨opcode, List.zipWith OperandKind.stored opcode.kinds insn.operands⟩ := ⟨count, first, rfl⟩
        exact ⟨_, _, encodeOnto_exact.mpr ⟨_, emits, rfl, rfl⟩⟩
      · exact absurd accepts (none n form reached)
  · intro next opcode done
    obtain ⟨form, emits, rfl, rfl⟩ := encodeOnto_exact.mp done
    obtain ⟨n, reached, -⟩ := emits.first
    refine ⟨emits.first, by rw [encodeInto?_eq, done], ⟨form.bytes, rfl, size_bytes emits.stored, ?_⟩, ?_,
      Opcode.operandCount_of_widened reached, Opcode.role_of_widened reached⟩
    · rw [← emits.values]
      exact decodeAt_exact.mpr ⟨form, emits.stored, Holds.refl _, rfl⟩
    · simp [Opcode.sameFamily, (Opcode.alike_of_widened reached).2.2]
  · intro e failed
    exact ⟨refused_of_error failed, by rw [encodeInto?_eq, failed]⟩

-- A string number that needs the second of two wider forms, behind other code.
def sampleLookup : Instruction := ⟨⟨54, by decide⟩, [.int 1, .int 2, .int 0, .int 70000]⟩

theorem sample_first_fit :
    sampleLookup.opcode.FirstFit sampleLookup.operands ⟨56, by decide⟩ ∧
      encodeInto? ⟨#[92, 0]⟩ sampleLookup = some (⟨#[92, 0, 56, 1, 2, 0, 0x70, 0x11, 1, 0]⟩, .ok ⟨56, by decide⟩) ∧
      sampleLookup.opcode.sameFamily ⟨56, by decide⟩ = true := by
  have done : encodeOnto ⟨#[92, 0]⟩ sampleLookup =
      .ok (⟨#[92, 0, 56, 1, 2, 0, 0x70, 0x11, 1, 0]⟩, ⟨56, by decide⟩) := by decide +kernel
  obtain ⟨-, -, written, -⟩ := encoded_in_first_fit sampleLookup ⟨#[92, 0]⟩
  obtain ⟨first, into, -, family, -⟩ := written _ _ done
  exact ⟨first, into, family⟩

end Instruction
end CodeImage
