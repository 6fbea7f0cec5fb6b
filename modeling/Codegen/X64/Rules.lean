import Codegen.Grammar.Rule
import Codegen.X64.Emit

/-!
# Rules — the x86-64 grammar

Values live in a register, as an immediate, or as a memory cell; a tree reduces to a register.
-/

namespace Codegen
namespace X64

open Pattern

def rules : List Rule :=
  [ ⟨"imm_literal", leaf .literal, .imm, .computed Price.literal, .keep⟩,
    ⟨"mov_imm", imm, .reg, .fixed 1, copy⟩,
    ⟨"mov_imm64", leaf .literal, .reg, .computed Price.wideLiteral, copy⟩,
    ⟨"vreg", leaf .vreg, .reg, .fixed 0, .keep⟩,
    ⟨"load", mem, .reg, .fixed 1, copy⟩,
    ⟨"var_slot", leaf .var, .mem, .fixed 0, slot⟩,
    ⟨"mem", leaf .mem, .mem, .fixed 0, .keep⟩,
    ⟨"frame_pointer", leaf .framePointer, .reg, .fixed 1, framePointer⟩,
    ⟨"binary_ri", .node .binary [reg, imm], .reg, .computed Price.binaryImm, binary⟩,
    ⟨"binary_rr", .node .binary [reg, reg], .reg, .computed Price.binaryReg, binary⟩,
    ⟨"binary_rm", .node .binary [reg, mem], .reg, .computed Price.binaryMem, binary⟩,
    ⟨"unary", .node .unary [reg], .reg, .fixed 2, unary⟩,
    ⟨"grouping", .node .grouping [reg], .reg, .fixed 0, inner⟩,
    ⟨"deref", .node .deref [reg], .mem, .fixed 0, deref⟩,
    ⟨"deref_disp", .node .deref [.node .binary [reg, imm]], .mem, .computed Price.foldedDeref,
      derefFolded⟩,
    ⟨"addr_of", leaf .addrOf, .reg, .fixed 1, addressOf⟩,
    ⟨"compare_rr", .node .compare [reg, reg], .reg, .fixed 2, compare⟩,
    ⟨"compare_ri", .node .compare [reg, imm], .reg, .fixed 2, compare⟩,
    ⟨"logical", .node .logical [reg, reg], .reg, .fixed 6, logical⟩,
    ⟨"store", .node .assign [mem, reg], .reg, .fixed 1, store⟩,
    ⟨"sext_reg", .node .signExtend [reg], .reg, .fixed 1, signExtend⟩,
    ⟨"sext_mem", .node .signExtend [mem], .reg, .fixed 1, signExtend⟩,
    ⟨"call", leaf .call, .reg, .computed Price.call, call⟩ ]

def grammar : Grammar := { rules, start := .reg }

end X64

def Target.x64 (s : Settings) : Except Error Target := Target.build X64.grammar s

end Codegen
