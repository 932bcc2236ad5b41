import RecordLayout.Layout.Listing
import RecordLayout.Proofs.Checked.Fault
import RecordLayout.Proofs.Layout.Scoping

/-!
# Blocks

A block is a listing together with the tables that its numbers are looked up in: names, expressions,
uses of custom types, and the custom types themselves. An expression of a block refers to a field by
its number among the names.

What a listing says about a declaration is found by looking it up; where a number is not in its table
there is a fault. In a well-formed block nothing that is looked up is missing.
-/

namespace RecordLayout

/-- An expression that refers to fields by their numbers among the names. -/
inductive Evaluator where
  | const (value : Int64)
  | field (number : Nat)
  | external (name : String)
  | counter
  | unary (op : UnaryOp) (operand : Evaluator)
  | binary (op : BinaryOp) (left right : Evaluator)

/-- The entry of a table. -/
def lookUp {α : Type} (table : List α) (i : Nat) : Except Fault α :=
  match table[i]? with
  | some x => .ok x
  | none => .error (.index i table.length)

namespace Evaluator

/-- The numbers of the fields that an expression refers to. -/
def fields : Evaluator → List Nat
  | field number => [number]
  | unary _ e => e.fields
  | binary _ l r => l.fields ++ r.fields
  | const _ | external _ | counter => []

/-- An expression with its fields numbered. -/
def ofExpr (names : List FieldInfo) : Expr → Evaluator
  | .const v => const v
  | .field info => field (names.idxOf info)
  | .external name => external name
  | .counter => counter
  | .unary op e => unary op (ofExpr names e)
  | .binary op l r => binary op (ofExpr names l) (ofExpr names r)

/-- The expression with its fields looked up. -/
def resolve (names : List FieldInfo) : Evaluator → Except Fault Expr
  | const v => .ok (.const v)
  | field number => do
    let info ← lookUp names number
    pure (.field info)
  | external name => .ok (.external name)
  | counter => .ok .counter
  | unary op e => do
    let e ← resolve names e
    pure (.unary op e)
  | binary op l r => do
    let l ← resolve names l
    let r ← resolve names r
    pure (.binary op l r)

end Evaluator

/-- An expression of a block with the index of the declaration it belongs to. -/
structure AttachedEvaluator where
  declaration : Nat
  evaluator : Evaluator

/-- A use of a custom type: its name in the script, and the place of the type. -/
structure CustomDecl where
  type : String
  slot : Nat

/-- A listing with its tables. -/
structure Block where
  descriptors : List Descriptor
  names : List FieldInfo
  evaluators : List AttachedEvaluator
  customs : List CustomDecl
  handlers : List CustomType

/-- An expression of a layout, attached with its fields numbered. -/
def AttachedExpr.numbered (names : List FieldInfo) (a : AttachedExpr) : AttachedEvaluator :=
  ⟨a.declaration, .ofExpr names a.expr⟩

/-- A use of a custom type without the type. -/
def CustomUse.declared (use : CustomUse) : CustomDecl := ⟨use.type, use.slot⟩

/-- The block of a layout. -/
def Layout.block (l : Layout) (handlers : List CustomType) : Block where
  descriptors := l.descriptors
  names := l.infos
  evaluators := l.exprs.map (·.numbered l.infos)
  customs := l.customUses.map CustomUse.declared
  handlers := handlers

/-! ## Looking up -/

namespace Block

/-- The expression with a number. -/
def expr (b : Block) (number : Nat) : Except Fault Expr := do
  let attached ← lookUp b.evaluators number
  attached.evaluator.resolve b.names

/-- A parameter. -/
def amount (b : Block) : Option ListedAmount → Except Fault (Option Amount)
  | none => .ok none
  | some (.const n) => .ok (some (.const n))
  | some (.expr number) => do
    let e ← b.expr number
    pure (some (.computed e))

/-- The length of an array. -/
def length (b : Block) : Option ListedLength → Except Fault (Option Length)
  | none => .ok none
  | some (.const n) => .ok (some (.const n))
  | some (.expr number) => do
    let e ← b.expr number
    pure (some (.computed e))
  | some .unbounded => .ok (some .unbounded)

/-- The name with a number. -/
def info (b : Block) : Option Nat → Except Fault (Option FieldInfo)
  | none => .ok none
  | some number => do
    let info ← lookUp b.names number
    pure (some info)

/-- The use of a custom type with a number. -/
def customUse (b : Block) (number : Nat) : Except Fault CustomUse :=
  match b.customs[number]? with
  | none => .error (.noHandler number)
  | some use =>
    match b.handlers[use.slot]? with
    | none => .error (.noHandler number)
    | some handler => .ok ⟨use.type, use.slot, handler⟩

/-- What is known of the declaration with an index. -/
def header (b : Block) (index : Nat) (d : Descriptor) : Except Fault Header := do
  let info ← b.info d.named
  pure ⟨index, info, d.order, d.position⟩

/-- What an entry declares that is no brace. A parameter that is not there counts as zero. -/
def decl (b : Block) (d : Descriptor) : Except Fault Decl := do
  let amount ← b.amount d.amount
  let length ← b.length d.length
  let amountOrZero := amount.getD (.const 0)
  match d.kind, d.custom with
  | .builtIn (.fixed type), _ => pure (.value (.fixed type) length)
  | .builtIn .bit, _ => pure (.value (.bit amountOrZero) length)
  | .builtIn .text, _ => pure (.value .text length)
  | .builtIn .align, _ => pure (.align amountOrZero)
  | .builtIn .skip, _ => pure (.skip amountOrZero)
  | .builtIn .computed, _ => pure (.computed amountOrZero)
  | .builtIn .reset, _ => pure .reset
  | .custom, some number => do
    let use ← b.customUse number
    pure (.value (.custom use amount) length)
  | kind, _ => .error (.noValue kind)

end Block

namespace Descriptor

/-- The index of the closing brace of an entry, which is in front of a limit. -/
def closing (d : Descriptor) (index limit : Nat) :
    Except Fault { close : Nat // index < close ∧ close < limit } :=
  match d.pair with
  | none => .error (.noClosing index)
  | some close =>
    if h : index < close ∧ close < limit then .ok ⟨close, h⟩ else .error (.noClosing index)

/-- The numbers of the expressions of an entry, the parameter's first. -/
def exprNumbers (d : Descriptor) : List Nat :=
  (match d.amount with
    | some (.expr number) => [number]
    | _ => []) ++
  match d.length with
  | some (.expr number) => [number]
  | _ => []

/-- The number of elements that is certain before a pass. -/
def certainCount (d : Descriptor) : Nat :=
  match d.length with
  | none => 1
  | some (.const n) => n.toNat
  | some _ => 0

/-- The bits that one element certainly takes. -/
def certainBits (d : Descriptor) : Nat :=
  match d.kind, d.amount with
  | .builtIn .skip, some (.const n) => 8 * n.toNat
  | .builtIn .bit, some (.const width) => width.toNat
  | .builtIn .bit, _ => 1
  | .builtIn .text, _ => 8
  | kind, _ => kind.fixedBits.getD 0

end Descriptor

namespace Block

/-- The entry with an index holds values: by its kind, or as a structure with such an entry inside. -/
def holdsValue (b : Block) (index : Nat) (d : Descriptor) : Except Fault Bool :=
  match d.kind, d.pair with
  | .opening, some close =>
    if index < close ∧ close ≤ b.descriptors.length then
      .ok (((b.descriptors.take close).drop (index + 1)).any (·.kind.holdsValue))
    else .error (.index close b.descriptors.length)
  | kind, _ => .ok kind.holdsValue

/-- Goes through the entries from one index up to another. A structure is handed to `node` with what
its entries and those behind it come to, any other entry to `leaf` with what comes behind it. -/
def walk {ρ : Type} (b : Block) (stuck : Fault → ρ) (done : ρ) (leaf : Nat → Descriptor → ρ → ρ)
    (node : (index close : Nat) → Descriptor → (inside behind : ρ) → ρ) (start stop : Nat) : ρ :=
  if _h : start < stop then
    match b.descriptors[start]? with
    | none => stuck (.index start b.descriptors.length)
    | some d =>
      if d.kind = .opening then
        match d.closing start stop with
        | .error f => stuck f
        | .ok ⟨close, _hclose⟩ =>
          node start close d (walk b stuck done leaf node (start + 1) close)
            (walk b stuck done leaf node (close + 1) stop)
      else leaf start d (walk b stuck done leaf node (start + 1) stop)
  else done
termination_by stop - start

/-- The bits that the entries from one index up to another certainly take. -/
def certainBits (b : Block) : (start stop : Nat) → Except Fault Nat :=
  b.walk .error (.ok 0)
    (fun _ d behind => do
      let more ← behind
      pure (d.certainCount * d.certainBits + more))
    fun _ _ d inside behind => do
      let bits ← inside
      let more ← behind
      pure (d.certainCount * bits + more)

/-! ## Well-formed blocks -/

/-- An opening brace and its closing brace: each knows the other, and they have the same name. -/
structure Pair (b : Block) (i j : Nat) : Prop where
  lt : i < j
  exists_entries : ∃ d e, b.descriptors[i]? = some d ∧ b.descriptors[j]? = some e ∧
    d.kind = .opening ∧ e.kind = .closing ∧ d.pair = some j ∧ e.pair = some i ∧ d.named = e.named

/-- The tables of a block fit each other. -/
structure WellFormed (b : Block) : Prop where
  /-- Every opening brace has its closing brace. -/
  opening : ∀ (i : Nat) (d : Descriptor), b.descriptors[i]? = some d → d.kind = .opening →
    ∃ j, b.Pair i j
  /-- Every closing brace has its opening brace. -/
  closing : ∀ (j : Nat) (d : Descriptor), b.descriptors[j]? = some d → d.kind = .closing →
    ∃ i, b.Pair i j
  /-- A structure that opens inside another one closes inside it. -/
  nested : ∀ i j i' j', b.Pair i j → b.Pair i' j' → i < i' → i' < j → j' < j
  /-- Names stand in the order of their declarations. -/
  sorted : (b.names.map FieldInfo.index).Pairwise (· < ·)
  /-- The declaration of a name has the number of the name. -/
  named : ∀ (k : Nat) (info : FieldInfo), b.names[k]? = some info →
    ∃ d, b.descriptors[info.index]? = some d ∧ d.named = some k
  /-- No declaration has the number of a name that is not there. -/
  numbered : ∀ d ∈ b.descriptors, ∀ k, d.named = some k → k < b.names.length
  /-- No path is declared twice. -/
  paths : (b.names.map FieldInfo.path).Nodup
  /-- An expression of an entry is attached to its index. -/
  attached : ∀ (i : Nat) (d : Descriptor), b.descriptors[i]? = some d → ∀ number ∈ d.exprNumbers,
    ∃ a, b.evaluators[number]? = some a ∧ a.declaration = i
  /-- The entries have each expression once, in order. -/
  used : b.descriptors.flatMap Descriptor.exprNumbers = List.range b.evaluators.length
  /-- An expression refers to single integers declared before its declaration. -/
  fields : ∀ a ∈ b.evaluators, ∀ k ∈ a.evaluator.fields,
    ∃ info d, b.names[k]? = some info ∧ info.index < a.declaration ∧
      b.descriptors[info.index]? = some d ∧ d.kind.isNumeric ∧ d.length = none
  /-- A custom type has its declaration and its handler. -/
  customs : ∀ d ∈ b.descriptors, d.kind = .custom →
    ∃ number use handler, d.custom = some number ∧ b.customs[number]? = some use ∧
      b.handlers[use.slot]? = some handler

end Block

end RecordLayout
