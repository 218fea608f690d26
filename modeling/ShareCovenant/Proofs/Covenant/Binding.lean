import Mathlib
import ShareCovenant.Contract.Covenant
import ShareCovenant.Proofs.Script.Steps

/-!
# Binding the elements of a spend

The two ends of the covenant program, for elements of any content. The first part goes on if and only if the
stack has the twelve elements and the three comparisons hold; the last part leaves one true element if and
only if nothing lies below the twelve elements and the one signature is valid both for the input and for the
fragments joined.
-/

namespace ShareCovenant.Covenant

open Program

/-- The elements that the covenant program starts with. -/
structure Elements where
  prevouts : Bytes
  outputs : Bytes
  signature : Bytes
  version : Bytes
  hashPrevouts : Bytes
  hashSequence : Bytes
  outpoint : Bytes
  scriptCode : Bytes
  value : Bytes
  sequence : Bytes
  hashOutputs : Bytes
  lockTimeAndType : Bytes

namespace Elements

variable (e : Elements)

/-- The pieces that are taken for the preimage. -/
def fragments : List Bytes :=
  [e.version, e.hashPrevouts, e.hashSequence, e.outpoint, e.scriptCode, e.value, e.sequence,
    e.hashOutputs, e.lockTimeAndType]

/-- The elements in the order in which they are pushed. -/
def pushed : List Bytes := [e.prevouts, e.outputs, e.signature] ++ e.fragments

/-- The elements that are left when prevouts and outputs are taken away, the top first. -/
def signed : Stack :=
  [e.lockTimeAndType, e.hashOutputs, e.sequence, e.value, e.scriptCode, e.outpoint, e.hashSequence,
    e.hashPrevouts, e.version, e.signature]

/-- The elements on a stack, the top first. -/
def stack : Stack := e.signed ++ [e.outputs, e.prevouts]

theorem reverse_pushed : e.pushed.reverse = e.stack := rfl

/-- Twelve elements are the elements of a spend. -/
theorem exists_of_length {s : Stack} (h : 11 < s.length) :
    ∃ (e : Elements) (rest : Stack), s = e.stack ++ rest := by
  match s, h with
  | lt :: ho :: sq :: v :: sc :: op :: hs :: hp :: ver :: sig :: outs :: prev :: rest, _ =>
      exact ⟨⟨prev, outs, sig, ver, hp, hs, op, sc, v, sq, ho, lt⟩, rest, rfl⟩

end Elements

variable {suite : Suite} {ctx : Option SpendContext} {p : Program} {s t rest : Stack} {e : Elements}

/-! ## Comparing the hashes -/

/-- The comparisons of `bindPreimage`. -/
structure Elements.Bound (suite : Suite) (e : Elements) : Prop where
  hashPrevouts : (suite.sha256d e.prevouts).val = e.hashPrevouts
  outpoint : e.prevouts = e.outpoint
  hashOutputs : (suite.sha256d e.outputs).val = e.hashOutputs

theorem run_bindPreimage_elements_iff :
    run suite ctx (bindPreimage ++ p) (e.stack ++ rest) = .ok t ↔
      e.Bound suite ∧
        run suite ctx p (e.value :: e.scriptCode :: e.outputs :: (e.signed ++ rest)) = .ok t := by
  simp only [bindPreimage, Elements.stack, Elements.signed, List.cons_append, List.nil_append]
  rw [run_roll 11 (by decide) (by decide) rfl]
  simp only [Int.reduceToNat, List.eraseIdx, run_dup, run_hash256]
  rw [run_pick 9 (by decide) (by decide) rfl, run_equalVerify_iff]
  rw [run_pick 6 (by decide) (by decide) rfl, run_equalVerify_iff, run_dupSecond]
  rw [run_roll 11 (by decide) (by decide) rfl]
  simp only [Int.reduceToNat, List.eraseIdx, run_dup, run_hash256, run_rot]
  rw [run_equalVerify_iff, run_pick 5 (by decide) (by decide) rfl, run_pick 5 (by decide) (by decide) rfl]
  constructor
  · rintro ⟨hprev, hop, houts, hrun⟩
    exact ⟨⟨hprev, hop, houts⟩, hrun⟩
  · rintro ⟨⟨hprev, hop, houts⟩, hrun⟩
    exact ⟨hprev, hop, houts, hrun⟩

/-- Binding goes on with twelve elements or more whose comparisons hold. -/
theorem run_bindPreimage_iff :
    run suite ctx (bindPreimage ++ p) s = .ok t ↔
      ∃ (e : Elements) (rest : Stack), s = e.stack ++ rest ∧ e.Bound suite ∧
        run suite ctx p (e.value :: e.scriptCode :: e.outputs :: (e.signed ++ rest)) = .ok t := by
  constructor
  · intro h
    have hlen : 11 < s.length := lt_length_of_run_roll 11 (by decide) h
    obtain ⟨e, rest, rfl⟩ := Elements.exists_of_length hlen
    exact ⟨e, rest, rfl, run_bindPreimage_elements_iff.1 h⟩
  · rintro ⟨e, rest, rfl, h⟩
    exact run_bindPreimage_elements_iff.2 h

/-! ## Checking the signature -/

/-- The signature, without its type byte, is one of the input and one of the joined fragments. -/
structure Elements.Signed (suite : Suite) (ctx : SpendContext) (pubkey : FixedBytes 33) (e : Elements) :
    Prop where
  length_joined : e.fragments.flatten.length ≤ maxElementSize
  exists_signature : ∃ (sig : FixedBytes 64) (preimage : Preimage),
    e.signature = sig.val ++ [sighashAllForkId.toUInt8] ∧
    Preimage.ofIndex? suite ctx.tx ctx.index ctx.scriptCode ctx.value sighashAllForkId = some preimage ∧
    Signature.verify suite sig (preimage.sighash suite) pubkey = true ∧
    Signature.verify suite sig (suite.sha256d e.fragments.flatten) pubkey = true

theorem run_cats_iff :
    run suite ctx (List.replicate 8 (Node.ofOpcode .cat) ++ p) (e.signed ++ rest) = .ok t ↔
      e.fragments.flatten.length ≤ maxElementSize ∧
        run suite ctx p (e.fragments.flatten :: e.signature :: rest) = .ok t := by
  simp only [Elements.signed, Elements.fragments, List.replicate, List.cons_append, List.nil_append,
    run_cat_iff, List.flatten_cons, List.flatten_nil, List.append_nil, List.length_append]
  constructor
  · rintro ⟨-, -, -, -, -, -, -, hlen, hrun⟩
    exact ⟨hlen, hrun⟩
  · rintro ⟨hlen, hrun⟩
    refine ⟨?_, ?_, ?_, ?_, ?_, ?_, ?_, hlen, hrun⟩
    all_goals omega

/-- The transaction signature check succeeds with a signature of the input and its type. -/
theorem checkSignature_eq_ok_true_iff (ctx : SpendContext) (sig pubkey : Bytes) :
    ctx.checkSignature suite sig pubkey = .ok true ↔
      ∃ (core : FixedBytes 64) (preimage : Preimage), sig = core.val ++ [sighashAllForkId.toUInt8] ∧
        Preimage.ofIndex? suite ctx.tx ctx.index ctx.scriptCode ctx.value sighashAllForkId = some preimage ∧
        Signature.verify suite core (preimage.sighash suite) pubkey = true := by
  rcases List.eq_nil_or_concat' sig with rfl | ⟨init, type, rfl⟩
  · simp [SpendContext.checkSignature]
  · simp only [SpendContext.checkSignature, List.getLast?_concat, List.dropLast_concat]
    split_ifs with hform
    · refine iff_of_false (by simp) ?_
      rintro ⟨core, preimage, heq, -⟩
      obtain ⟨rfl, htype⟩ := List.append_inj' heq rfl
      cases htype
      rw [core.property] at hform
      exact absurd hform (by decide)
    · rw [not_or, not_not, not_not] at hform
      obtain ⟨hlen, htype⟩ := hform
      have hbyte : type = sighashAllForkId.toUInt8 := by
        rw [← htype]
        simp
      rw [htype, hbyte]
      cases hpre : Preimage.ofIndex? suite ctx.tx ctx.index ctx.scriptCode ctx.value sighashAllForkId with
      | none => simp
      | some preimage =>
          simp only [Except.ok.injEq]
          constructor
          · intro hverify
            exact ⟨⟨init, hlen⟩, preimage, rfl, rfl, hverify⟩
          · rintro ⟨core, preimage', heq, hsome, hverify⟩
            cases hsome
            obtain ⟨rfl, -⟩ := List.append_inj' heq rfl
            exact hverify

theorem run_checkSigVerify_iff {ctx : SpendContext} (pubkey sig : Bytes) :
    run suite (some ctx) (Node.checking .checkSigVerify :: p) (pubkey :: sig :: s) = .ok t ↔
      ctx.checkSignature suite sig pubkey = .ok true ∧ run suite (some ctx) p s = .ok t := by
  rw [run_check]
  simp only [Opcode.run, Stack.checkSig, Stack.nullFail, Stack.verify, bind, Except.bind]
  cases ctx.checkSignature suite sig pubkey with
  | error e => simp
  | ok valid =>
      cases valid with
      | true => simp [pure, Except.pure]
      | false => cases sig <;> simp [pure, Except.pure]

/-- A signature of 64 bytes passes the data signature check only if it is valid. -/
theorem run_checkDataSig_iff (pubkey msg : Bytes) (core : FixedBytes 64) :
    run suite ctx (Node.ofOpcode .checkDataSig :: p) (pubkey :: msg :: core.val :: s) = .ok t ↔
      Signature.verify suite core (suite.sha256 msg) pubkey = true ∧ run suite ctx p ([1] :: s) = .ok t := by
  have hne : core.val.isEmpty = false := by
    rw [List.isEmpty_eq_false_iff_exists_mem]
    have hpos : 0 < core.val.length := by rw [core.property]; decide
    exact ⟨core.val[0], List.getElem_mem hpos⟩
  rw [run_opcode]
  simp only [Opcode.run, Stack.checkDataSig, Stack.nullFail, core.property, hne, bind, Except.bind]
  cases Signature.verify suite core (suite.sha256 msg) pubkey with
  | true => simp [Number.ofBool, pure, Except.pure]
  | false => simp

/-- The last part leaves one element more than lies below the twelve. -/
theorem run_checkSignature_iff {ctx : SpendContext} (pubkey : FixedBytes 33) :
    run suite (some ctx) (checkSignature pubkey) (e.signed ++ rest) = .ok t ↔
      e.Signed suite ctx pubkey ∧ t = [1] :: rest := by
  rw [checkSignature, run_cats_iff, run_data, run_dup3, run_nip, run_checkSigVerify_iff,
    checkSignature_eq_ok_true_iff, run_rot]
  constructor
  · rintro ⟨hlen, ⟨core, preimage, hsig, hpre, hverify⟩, hrun⟩
    rw [hsig, run_split_append 64 (by rw [core.property]; rfl) (by decide), run_drop, run_rot, run_sha256,
      run_rot, run_checkDataSig_iff, run_nil] at hrun
    obtain ⟨hdata, ht⟩ := hrun
    exact ⟨⟨hlen, core, preimage, hsig, hpre, hverify, hdata⟩, (Except.ok.inj ht).symm⟩
  · rintro ⟨⟨hlen, core, preimage, hsig, hpre, hverify, hdata⟩, rfl⟩
    refine ⟨hlen, ⟨core, preimage, hsig, hpre, hverify⟩, ?_⟩
    rw [hsig, run_split_append 64 (by rw [core.property]; rfl) (by decide), run_drop, run_rot, run_sha256,
      run_rot, run_checkDataSig_iff, run_nil]
    exact ⟨hdata, rfl⟩

end ShareCovenant.Covenant
