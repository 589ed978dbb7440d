import Gilmap.Python.Dicts

/-! # The IR between the two languages

What `ast_ir.rs` decodes of the dict of a tree, in whatever order the keys of its objects
come: the tree itself when its literals have a place in the IR, and an error otherwise.
-/
namespace Gilmap
open Library Library.Json
variable {F : Type}

/-! ## Names -/

@[simp] theorem Dtype.ofTag_tag (d : Dtype) : Dtype.ofTag (dtypeTag d) = some d := by
  cases d <;> rfl

@[simp] theorem BinOp.ofTag_tag (op : BinOp) : BinOp.ofTag op.tag = some op := by
  cases op <;> rfl

@[simp] theorem CmpOp.ofTag_tag (op : CmpOp) : CmpOp.ofTag op.tag = some op := by
  cases op <;> rfl

@[simp] theorem UnaryOp.ofTag_tag (op : UnaryOp) : UnaryOp.ofTag op.tag = some op := by
  cases op <;> rfl

@[simp] theorem MathFn.ofTag_tag (fn : MathFn) : MathFn.ofTag fn.tag = some fn := by
  cases fn <;> rfl

section Decode
variable {fl : FloatOps F} (asF64 : ℤ → F) {n : ℕ} {j : Json F}

/-- A value where `good` says that it has a place in the IR. -/
def keepIf {α : Type} (good : Bool) (a : α) : Option α := if good then some a else none

theorem keepIf_bind {α β : Type} (good : Bool) (a : α) (k : α → Option β) :
    (keepIf good a).bind k = if good then k a else none := by
  cases good <;> rfl

theorem keepIf_eq_some {α : Type} {good : Bool} {a b : α} :
    keepIf good a = some b ↔ good = true ∧ a = b := by
  cases good <;> simp [keepIf]

theorem decodeTag_reads {α : Type} {ofTag : String → Option α} {s : String}
    (h : ReadsAs fl.isFinite (.str s) j) : decodeTag ofTag j = ofTag s := by
  simp only [decodeTag, h.str_eq, Option.bind_some]

theorem decodeI64_reads {v : ℤ} (h : ReadsAs fl.isFinite (.int v) j) :
    decodeI64 j = keepIf (decide (InI64 v)) v := by
  cases h with
  | int _ _ => simp [decodeI64, keepIf]
  | wide hout =>
    have hnot : ¬ InI64 v := by
      rintro ⟨hl, hr⟩
      exact hout ⟨hl, by omega⟩
    simp [decodeI64, keepIf, hnot]

theorem decodeF64_reads {x : F} (h : ReadsAs fl.isFinite (.float x) j) :
    decodeF64 asF64 j = keepIf (fl.isFinite x) x := by
  cases h with
  | float hx => simp [decodeF64, keepIf, hx]

/-- The parts of the dict of a node. -/
theorem reads_node {kind : String} {fields : List (String × Json F)}
    (h : ReadsAs fl.isFinite (.obj (("kind", .str kind) :: fields)) j)
    (hkeys : ("kind" :: fields.map Prod.fst).Nodup) :
    ∃ fields' v, j = .obj fields' ∧ field fields' "kind" = some v ∧ v.str? = some kind ∧
      ∀ p ∈ fields, ∃ v', field fields' p.1 = some v' ∧ ReadsAs fl.isFinite p.2 v' := by
  obtain ⟨fields', rfl, hf⟩ := h.field hkeys
  obtain ⟨⟨v, hv, hkind⟩, hrest⟩ := List.forall_mem_cons.mp hf
  exact ⟨fields', v, rfl, hv, hkind.str_eq, hrest⟩

/-- A value nested less deep than the fuel. -/
theorem exists_fuel {d : ℕ} (h : d + 1 ≤ n) : ∃ m, n = m + 1 ∧ d ≤ m :=
  ⟨n - 1, by omega, by omega⟩

theorem decodeExpr_reads (e : Expr F) (h : ReadsAs fl.isFinite e.toDict j) (hn : e.jsonDepth ≤ n) :
    decodeExpr asF64 n j = keepIf (e.decodes fl) e := by
  induction e generalizing n j with
  | param =>
    obtain ⟨n, rfl, -⟩ := exists_fuel hn
    obtain ⟨fields, v, rfl, hkind, hk, -⟩ := reads_node h (by simp)
    simp only [decodeExpr, hkind, hk, Option.bind_eq_bind, Option.bind_some]
    rfl
  | localVar name =>
    obtain ⟨n, rfl, -⟩ := exists_fuel hn
    obtain ⟨fields, v, rfl, hkind, hk, hf⟩ := reads_node h (by simp)
    simp only [List.forall_mem_cons] at hf
    obtain ⟨⟨v', hname, hv⟩, -⟩ := hf
    simp only [decodeExpr, hkind, hk, hname, hv.str_eq, Option.bind_eq_bind, Option.bind_some]
    rfl
  | constI64 value =>
    obtain ⟨n, rfl, -⟩ := exists_fuel hn
    obtain ⟨fields, v, rfl, hkind, hk, hf⟩ := reads_node h (by simp)
    simp only [List.forall_mem_cons] at hf
    obtain ⟨⟨v', hvalue, hv⟩, -⟩ := hf
    simp only [decodeExpr, hkind, hk, hvalue, decodeI64_reads hv, keepIf_bind, Option.bind_eq_bind,
      Option.bind_some]
    rfl
  | constF64 value =>
    obtain ⟨n, rfl, -⟩ := exists_fuel hn
    obtain ⟨fields, v, rfl, hkind, hk, hf⟩ := reads_node h (by simp)
    simp only [List.forall_mem_cons] at hf
    obtain ⟨⟨v', hvalue, hv⟩, -⟩ := hf
    simp only [decodeExpr, hkind, hk, hvalue, decodeF64_reads asF64 hv, keepIf_bind, Option.bind_eq_bind,
      Option.bind_some]
    rfl
  | constBool value =>
    obtain ⟨n, rfl, -⟩ := exists_fuel hn
    obtain ⟨fields, v, rfl, hkind, hk, hf⟩ := reads_node h (by simp)
    simp only [List.forall_mem_cons] at hf
    obtain ⟨⟨v', hvalue, hv⟩, -⟩ := hf
    simp only [decodeExpr, hkind, hk, hvalue, hv.bool_eq, Option.bind_eq_bind, Option.bind_some]
    rfl
  | binOp op left right ihl ihr | compare op left right ihl ihr =>
    obtain ⟨n, rfl, hd⟩ := exists_fuel hn
    obtain ⟨fields, v, rfl, hkind, hk, hf⟩ := reads_node h (by simp)
    simp only [List.forall_mem_cons] at hf
    obtain ⟨⟨tag, htag, ht⟩, ⟨l, hleft, hl⟩, ⟨r, hright, hr⟩, -⟩ := hf
    have hleftIr := ihl (n := n) hl (by omega)
    have hrightIr := ihr (n := n) hr (by omega)
    simp only [decodeExpr, hkind, hk, htag, decodeTag_reads ht, BinOp.ofTag_tag, CmpOp.ofTag_tag,
      hleft, hright, hleftIr, hrightIr, keepIf_bind, Option.bind_eq_bind, Option.bind_some]
    simp only [keepIf, Expr.decodes, Bool.and_eq_true, ite_and]
  | unary op operand ih =>
    obtain ⟨n, rfl, hd⟩ := exists_fuel hn
    obtain ⟨fields, v, rfl, hkind, hk, hf⟩ := reads_node h (by simp)
    simp only [List.forall_mem_cons] at hf
    obtain ⟨⟨tag, htag, ht⟩, ⟨e, hoperand, he⟩, -⟩ := hf
    have hir := ih he hd
    simp only [decodeExpr, hkind, hk, htag, decodeTag_reads ht, UnaryOp.ofTag_tag, hoperand, hir,
      keepIf_bind, Option.bind_eq_bind, Option.bind_some]
    rfl
  | mathCall func arg ih =>
    obtain ⟨n, rfl, hd⟩ := exists_fuel hn
    obtain ⟨fields, v, rfl, hkind, hk, hf⟩ := reads_node h (by simp)
    simp only [List.forall_mem_cons] at hf
    obtain ⟨⟨tag, htag, ht⟩, ⟨e, harg, he⟩, -⟩ := hf
    have hir := ih he hd
    simp only [decodeExpr, hkind, hk, htag, decodeTag_reads ht, MathFn.ofTag_tag, harg, hir,
      keepIf_bind, Option.bind_eq_bind, Option.bind_some]
    rfl
  | ifExpr test yes no iht ihy ihn =>
    obtain ⟨n, rfl, hd⟩ := exists_fuel hn
    obtain ⟨fields, v, rfl, hkind, hk, hf⟩ := reads_node h (by simp)
    simp only [List.forall_mem_cons] at hf
    obtain ⟨⟨t, htest, ht⟩, ⟨y, hyes, hy⟩, ⟨z, hno, hz⟩, -⟩ := hf
    have htestIr := iht (n := n) ht (by omega)
    have hyesIr := ihy (n := n) hy (by omega)
    have hnoIr := ihn (n := n) hz (by omega)
    simp only [decodeExpr, hkind, hk, htest, hyes, hno, htestIr, hyesIr, hnoIr, keepIf_bind,
      Option.bind_eq_bind, Option.bind_some]
    simp only [keepIf, Expr.decodes, Bool.and_eq_true, ite_and]
  | castToI64 value ih | castToF64 value ih =>
    obtain ⟨n, rfl, hd⟩ := exists_fuel hn
    obtain ⟨fields, v, rfl, hkind, hk, hf⟩ := reads_node h (by simp)
    simp only [List.forall_mem_cons] at hf
    obtain ⟨⟨e, hvalue, he⟩, -⟩ := hf
    have hir := ih he hd
    simp only [decodeExpr, hkind, hk, hvalue, hir, keepIf_bind, dtypeTag, Option.bind_eq_bind,
      Option.bind_some]
    rfl

mutual

theorem decodeStmt_reads {n : ℕ} {j : Json F} : ∀ (stmt : Stmt F),
    ReadsAs fl.isFinite stmt.toDict j → stmt.jsonDepth ≤ n →
    decodeStmt asF64 n j = keepIf (stmt.decodes fl) stmt
  | .assign name dtype value, h, hn => by
    obtain ⟨n, rfl, hd⟩ := exists_fuel hn
    obtain ⟨fields, v, rfl, hkind, hk, hf⟩ := reads_node h (by simp)
    simp only [List.forall_mem_cons] at hf
    obtain ⟨⟨nm, hname, hnm⟩, ⟨tag, htag, ht⟩, ⟨e, hvalue, he⟩, -⟩ := hf
    have hir := decodeExpr_reads asF64 value he hd
    simp only [decodeStmt, hkind, hk, hname, hnm.str_eq, htag, decodeTag_reads ht, Dtype.ofTag_tag,
      hvalue, hir, keepIf_bind, Option.bind_eq_bind, Option.bind_some]
    rfl
  | .ret value, h, hn => by
    obtain ⟨n, rfl, hd⟩ := exists_fuel hn
    obtain ⟨fields, v, rfl, hkind, hk, hf⟩ := reads_node h (by simp)
    simp only [List.forall_mem_cons] at hf
    obtain ⟨⟨e, hvalue, he⟩, -⟩ := hf
    have hir := decodeExpr_reads asF64 value he hd
    simp only [decodeStmt, hkind, hk, hvalue, hir, keepIf_bind, Option.bind_eq_bind, Option.bind_some]
    rfl
  | .forRange var start stop body, h, hn => by
    obtain ⟨n, rfl, hd⟩ := exists_fuel hn
    obtain ⟨fields, v, rfl, hkind, hk, hf⟩ := reads_node h (by simp)
    simp only [List.forall_mem_cons] at hf
    obtain ⟨⟨nm, hvar, hnm⟩, ⟨s, hstart, hs⟩, ⟨t, hstop, ht⟩, ⟨b, hbody, hb⟩, -⟩ := hf
    obtain ⟨items, hitems, hread⟩ := hb.arr_eq
    have hstartIr := decodeExpr_reads (n := n) asF64 start hs (by omega)
    have hstopIr := decodeExpr_reads (n := n) asF64 stop ht (by omega)
    have hbodyIr := decodeBody_reads (n := n) body hread (by omega)
    simp only [decodeStmt, hkind, hk, hvar, hnm.str_eq, hstart, hstop, hbody, hitems, hstartIr,
      hstopIr, hbodyIr, keepIf_bind, Option.bind_eq_bind, Option.bind_some]
    simp only [keepIf, Stmt.decodes, Bool.and_eq_true, ite_and]
  | .whileDo cond body, h, hn => by
    obtain ⟨n, rfl, hd⟩ := exists_fuel hn
    obtain ⟨fields, v, rfl, hkind, hk, hf⟩ := reads_node h (by simp)
    simp only [List.forall_mem_cons] at hf
    obtain ⟨⟨c, hcond, hc⟩, ⟨b, hbody, hb⟩, -⟩ := hf
    obtain ⟨items, hitems, hread⟩ := hb.arr_eq
    have hcondIr := decodeExpr_reads (n := n) asF64 cond hc (by omega)
    have hbodyIr := decodeBody_reads (n := n) body hread (by omega)
    simp only [decodeStmt, hkind, hk, hcond, hbody, hitems, hcondIr, hbodyIr, keepIf_bind,
      Option.bind_eq_bind, Option.bind_some]
    simp only [keepIf, Stmt.decodes, Bool.and_eq_true, ite_and]
  | .ifElse test thenBody elseBody, h, hn => by
    obtain ⟨n, rfl, hd⟩ := exists_fuel hn
    obtain ⟨fields, v, rfl, hkind, hk, hf⟩ := reads_node h (by simp)
    simp only [List.forall_mem_cons] at hf
    obtain ⟨⟨c, htest, hc⟩, ⟨b, hthen, hb⟩, ⟨b', helse, hb'⟩, -⟩ := hf
    obtain ⟨items, hitems, hread⟩ := hb.arr_eq
    obtain ⟨items', hitems', hread'⟩ := hb'.arr_eq
    have htestIr := decodeExpr_reads (n := n) asF64 test hc (by omega)
    have hthenIr := decodeBody_reads (n := n) thenBody hread (by omega)
    have helseIr := decodeBody_reads (n := n) elseBody hread' (by omega)
    simp only [decodeStmt, hkind, hk, htest, hthen, helse, hitems, hitems', htestIr, hthenIr, helseIr,
      keepIf_bind, Option.bind_eq_bind, Option.bind_some]
    simp only [keepIf, Stmt.decodes, Bool.and_eq_true, ite_and]
  | .brk, h, hn | .cont, h, hn => by
    obtain ⟨n, rfl, hd⟩ := exists_fuel hn
    obtain ⟨fields, v, rfl, hkind, hk, -⟩ := reads_node h (by simp)
    simp only [decodeStmt, hkind, hk, Option.bind_eq_bind, Option.bind_some]
    rfl

theorem decodeBody_reads {n : ℕ} {items : List (Json F)} : ∀ (body : List (Stmt F)),
    ItemsRead fl.isFinite (bodyDicts body) items → bodyDepth body ≤ n →
    items.mapM (decodeStmt asF64 n) = keepIf (bodyDecodes fl body) body
  | [], h, _ => by
    cases h
    rfl
  | stmt :: rest, h, hn => by
    cases h with
    | cons hv hrest =>
      have hstmt := decodeStmt_reads (n := n) stmt hv (le_trans (le_max_left _ _) hn)
      have hbody := decodeBody_reads (n := n) rest hrest (le_trans (le_max_right _ _) hn)
      simp only [List.mapM_cons, hstmt, hbody, keepIf_bind, Option.bind_eq_bind, Option.pure_def]
      simp only [keepIf, bodyDecodes, Bool.and_eq_true, ite_and]

end

/-- What becomes of a kernel, whatever the order of the keys. -/
theorem decodeKernel_reads {limit : ℕ} (k : Kernel F) (h : ReadsAs fl.isFinite k.toDict j)
    (hd : bodyDepth k.body ≤ limit) :
    decodeKernel asF64 limit j = keepIf (bodyDecodes fl k.body) k := by
  obtain ⟨fields, rfl, hf⟩ := h.field (by simp)
  simp only [List.forall_mem_cons] at hf
  obtain ⟨⟨i, hin, hi⟩, ⟨o, hout, ho⟩, ⟨b, hbody, hb⟩, -⟩ := hf
  obtain ⟨items, hitems, hread⟩ := hb.arr_eq
  have hbodyIr := decodeBody_reads asF64 k.body hread hd
  simp only [decodeKernel, hin, hout, hbody, hitems, decodeTag_reads hi, decodeTag_reads ho,
    Dtype.ofTag_tag, hbodyIr, keepIf_bind, Option.bind_eq_bind, Option.bind_some]
  rfl

end Decode

/-! ## The text -/

theorem Expr.toDict_depth (e : Expr F) : e.toDict.depth = e.jsonDepth := by
  induction e with
  | param | localVar _ | constI64 _ | constF64 _ | constBool _ => rfl
  | unary _ _ ih | mathCall _ _ ih | castToI64 _ ih | castToF64 _ ih =>
    simp [Expr.toDict, castDict, Json.depth, fieldsDepth, Expr.jsonDepth, ih]
  | binOp _ _ _ ihl ihr | compare _ _ _ ihl ihr =>
    simp [Expr.toDict, Json.depth, fieldsDepth, Expr.jsonDepth, ihl, ihr]
  | ifExpr _ _ _ iht ihy ihn =>
    simp [Expr.toDict, Json.depth, fieldsDepth, Expr.jsonDepth, iht, ihy, ihn]

theorem Expr.toDict_plain (fl : FloatOps F) (e : Expr F) : e.toDict.plain fl.isFinite = e.decodes fl := by
  induction e with
  | param | localVar _ | constBool _ => rfl
  | constI64 _ =>
    simp only [Expr.toDict, Json.plain, fieldsPlain, Expr.decodes, Bool.true_and, Bool.and_true]
    rfl
  | constF64 _ =>
    simp only [Expr.toDict, Json.plain, fieldsPlain, Expr.decodes, Bool.true_and, Bool.and_true]
  | unary _ _ ih | mathCall _ _ ih | castToI64 _ ih | castToF64 _ ih =>
    simp [Expr.toDict, castDict, Json.plain, fieldsPlain, Expr.decodes, ih]
  | binOp _ _ _ ihl ihr | compare _ _ _ ihl ihr =>
    simp [Expr.toDict, Json.plain, fieldsPlain, Expr.decodes, ihl, ihr]
  | ifExpr _ _ _ iht ihy ihn =>
    simp [Expr.toDict, Json.plain, fieldsPlain, Expr.decodes, iht, ihy, ihn, Bool.and_assoc]

mutual

theorem Stmt.toDict_depth : ∀ stmt : Stmt F, stmt.toDict.depth = stmt.jsonDepth
  | .assign _ _ value | .ret value => by
    simp [Stmt.toDict, Json.depth, fieldsDepth, Stmt.jsonDepth, value.toDict_depth]
  | .forRange _ start stop body => by
    simp [Stmt.toDict, Json.depth, fieldsDepth, Stmt.jsonDepth, start.toDict_depth,
      stop.toDict_depth, bodyDicts_depth body, max_assoc]
  | .whileDo cond body => by
    simp [Stmt.toDict, Json.depth, fieldsDepth, Stmt.jsonDepth, cond.toDict_depth,
      bodyDicts_depth body]
  | .ifElse test thenBody elseBody => by
    simp [Stmt.toDict, Json.depth, fieldsDepth, Stmt.jsonDepth, test.toDict_depth,
      bodyDicts_depth thenBody, bodyDicts_depth elseBody]
  | .brk | .cont => rfl

theorem bodyDicts_depth : ∀ body : List (Stmt F), itemsDepth (bodyDicts body) = bodyDepth body
  | [] => rfl
  | stmt :: rest => by
    simp only [bodyDicts, itemsDepth, bodyDepth, Stmt.toDict_depth stmt, bodyDicts_depth rest]

end

mutual

theorem Stmt.toDict_plain (fl : FloatOps F) :
    ∀ stmt : Stmt F, stmt.toDict.plain fl.isFinite = stmt.decodes fl
  | .assign _ _ value | .ret value => by
    simp [Stmt.toDict, Json.plain, fieldsPlain, Stmt.decodes, value.toDict_plain fl]
  | .forRange _ start stop body => by
    simp [Stmt.toDict, Json.plain, fieldsPlain, Stmt.decodes, start.toDict_plain fl,
      stop.toDict_plain fl, bodyDicts_plain fl body, Bool.and_assoc]
  | .whileDo cond body => by
    simp [Stmt.toDict, Json.plain, fieldsPlain, Stmt.decodes, cond.toDict_plain fl,
      bodyDicts_plain fl body]
  | .ifElse test thenBody elseBody => by
    simp [Stmt.toDict, Json.plain, fieldsPlain, Stmt.decodes, test.toDict_plain fl,
      bodyDicts_plain fl thenBody, bodyDicts_plain fl elseBody, Bool.and_assoc]
  | .brk | .cont => rfl

theorem bodyDicts_plain (fl : FloatOps F) :
    ∀ body : List (Stmt F), itemsPlain fl.isFinite (bodyDicts body) = bodyDecodes fl body
  | [] => rfl
  | stmt :: rest => by
    simp only [bodyDicts, itemsPlain, bodyDecodes, Stmt.toDict_plain fl stmt, bodyDicts_plain fl rest]

end

theorem Kernel.toDict_depth (k : Kernel F) : k.toDict.depth = bodyDepth k.body + 2 := by
  simp [Kernel.toDict, Json.depth, fieldsDepth, bodyDicts_depth]

theorem Kernel.toDict_plain (fl : FloatOps F) (k : Kernel F) :
    k.toDict.plain fl.isFinite = bodyDecodes fl k.body := by
  simp [Kernel.toDict, Json.plain, fieldsPlain, bodyDicts_plain]

section Text
variable {fl : FloatOps F} {asF64 : ℤ → F} {c : Codec F}

/-- `serde_json::from_str` on the text that `json.dumps` makes of a dict. -/
def fromStr (asF64 : ℤ → F) (c : Codec F) (dict : Json F) : Option (Kernel F) :=
  (c.roundTrip dict).bind (decodeKernel asF64 jsonDepthLimit)

/-- `try_compile` decodes exactly what it is modelled to decode. -/
theorem fromStr_toDict (hc : c.Laws fl.isFinite jsonDepthLimit) (k : Kernel F) :
    fromStr asF64 c k.toDict = keepIf (k.decodes fl) k := by
  unfold fromStr
  cases hround : c.roundTrip k.toDict with
  | none =>
    have hno : k.decodes fl = false := by
      rw [Bool.eq_false_iff]
      intro hyes
      obtain ⟨hlits, hdepth⟩ := Bool.and_eq_true_iff.mp hyes
      have hsome := hc.accepts k.toDict (by rw [k.toDict_plain, hlits])
        (by rw [k.toDict_depth]; exact of_decide_eq_true hdepth)
      simp [hround] at hsome
    rw [hno]
    rfl
  | some j =>
    have hdepth : bodyDepth k.body + 2 ≤ jsonDepthLimit := by
      by_contra hdeep
      rw [hc.rejects k.toDict (by rw [k.toDict_depth]; omega)] at hround
      cases hround
    rw [Option.bind_some, decodeKernel_reads asF64 k (hc.reads _ _ hround) (by omega),
      Kernel.decodes, decide_eq_true hdepth, Bool.and_true]

/-- **Encoder and decoder agree.** The dict of an accepted function is that of its kernel.
When its literals have a place in the IR and it is not too deep, its text decodes to the
kernel; when one of them has not, decoding fails. The order of the keys does not matter. -/
theorem kernel_json_roundtrip (hc : c.Laws fl.isFinite jsonDepthLimit) {d : Dtype} {node : FnNode F}
    {k : Kernel F} (h : walkFunction d node = some k) :
    functionDict d node = some k.toDict ∧
      (bodyDecodes fl k.body = true → k.toDict.depth ≤ jsonDepthLimit →
        fromStr asF64 c k.toDict = some k ∧ ∀ j, ReadsAs fl.isFinite k.toDict j →
          decodeKernel asF64 jsonDepthLimit j = some k) ∧
      (bodyDecodes fl k.body = false → fromStr asF64 c k.toDict = none) := by
  refine ⟨by rw [functionDict_eq, h]; rfl, fun hlits hdepth => ?_, fun hlits => ?_⟩
  · rw [k.toDict_depth] at hdepth
    constructor
    · rw [fromStr_toDict hc, Kernel.decodes, hlits, decide_eq_true hdepth]
      rfl
    · intro j hj
      rw [decodeKernel_reads asF64 k hj (by omega), hlits]
      rfl
  · rw [fromStr_toDict hc, Kernel.decodes, hlits]
    rfl

end Text

/-! ## A codec on values -/

mutual

def sortKeys : Json F → Json F
  | .arr items => .arr (sortItems items)
  | .obj fields => .obj ((sortFields fields).mergeSort fun p q => decide (p.1 ≤ q.1))
  | j => j

def sortItems : List (Json F) → List (Json F)
  | [] => []
  | v :: rest => sortKeys v :: sortItems rest

def sortFields : List (String × Json F) → List (String × Json F)
  | [] => []
  | (key, v) :: rest => (key, sortKeys v) :: sortFields rest

end

mutual

theorem reads_sortKeys {isFinite : F → Bool} : ∀ j : Json F, j.plain isFinite = true →
    ReadsAs isFinite j (sortKeys j)
  | .int n, h => by
    obtain ⟨hl, hr⟩ := of_decide_eq_true h
    exact .int hl (by omega)
  | .float x, h => .float h
  | .bool _, _ => .bool
  | .str _, _ => .str
  | .arr items, h => .arr (itemsRead_sortItems items h)
  | .obj fields, h => .obj (fieldsRead_sortFields fields h) (List.mergeSort_perm _ _).symm

theorem itemsRead_sortItems {isFinite : F → Bool} : ∀ items : List (Json F),
    itemsPlain isFinite items = true → ItemsRead isFinite items (sortItems items)
  | [], _ => .nil
  | v :: rest, h => by
    obtain ⟨hv, hrest⟩ := Bool.and_eq_true_iff.mp h
    exact .cons (reads_sortKeys v hv) (itemsRead_sortItems rest hrest)

theorem fieldsRead_sortFields {isFinite : F → Bool} : ∀ fields : List (String × Json F),
    fieldsPlain isFinite fields = true → FieldsRead isFinite fields (sortFields fields)
  | [], _ => .nil
  | (key, v) :: rest, h => by
    obtain ⟨hv, hrest⟩ := Bool.and_eq_true_iff.mp h
    exact .cons (reads_sortKeys v hv) (fieldsRead_sortFields rest hrest)

end

/-- A codec whose text is the value itself, and whose reader sorts the keys. -/
def valueCodec (isFinite : F → Bool) (limit : ℕ) : Codec F where
  Text := Json F
  dumps := some
  parse j := if j.plain isFinite = true ∧ j.depth ≤ limit then some (sortKeys j) else none

theorem valueCodec_laws (isFinite : F → Bool) (limit : ℕ) :
    (valueCodec isFinite limit).Laws isFinite limit where
  reads j j' h := by
    simp only [Codec.roundTrip, valueCodec, Option.bind_some] at h
    split at h
    · rename_i hj
      cases h
      exact reads_sortKeys j hj.1
    · cases h
  accepts j hplain hdepth := by
    simp [Codec.roundTrip, valueCodec, hplain, hdepth]
  rejects j hdepth := by
    simp [Codec.roundTrip, valueCodec, hdepth]

/-- `lambda x: x // 2 if x > 0 else 7` -/
def halveOrSeven : FnNode (BitVec 64) :=
  .lambda ["x"] (.ifExp (.compare (.name "x") [.gt] [.constant (.int 0)])
    (.binOp (.name "x") .floorDiv (.constant (.int 2))) (.constant (.int 7)))

def halveOrSevenKernel : Kernel (BitVec 64) where
  inputDtype := .i64
  outputDtype := .i64
  body := [.ret (.ifExpr (.compare .gt .param (.constI64 0)) (.binOp .floorDiv .param (.constI64 2))
    (.constI64 7))]

theorem kernel_json_roundtrip_halveOrSeven :
    fromStr (fun n => hostFloatBits.ofInt (BitVec.ofInt 64 n))
      (valueCodec hostFloatBits.isFinite jsonDepthLimit) halveOrSevenKernel.toDict =
        some halveOrSevenKernel := by
  have hwalk : walkFunction .i64 halveOrSeven = some halveOrSevenKernel := rfl
  exact ((kernel_json_roundtrip (valueCodec_laws _ _) hwalk).2.1 rfl (by decide)).1

end Gilmap
