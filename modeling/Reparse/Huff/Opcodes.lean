/-! # Mnemonics of the Ethereum virtual machine -/
namespace Reparse.Huff

/-- `name` followed by each number from `first` to `last`. -/
def numbered (name : String) (first last : Nat) : List String :=
  (List.range (last + 1 - first)).map fun i => name ++ toString (first + i)

/-- Every mnemonic that a macro body may hold. -/
def opcodes : List String :=
  ["add", "mul", "sub", "div", "sdiv", "mod", "smod", "addmod", "mulmod", "exp", "signextend",
    "lt", "gt", "slt", "sgt", "eq", "iszero",
    "and", "or", "xor", "not", "byte", "shl", "shr", "sar",
    "sha3",
    "address", "balance", "origin", "caller", "callvalue", "calldataload", "calldatasize",
    "calldatacopy", "codesize", "codecopy", "gasprice", "extcodesize", "extcodecopy",
    "returndatasize", "returndatacopy", "extcodehash",
    "blockhash", "coinbase", "timestamp", "number", "prevrandao", "gaslimit", "chainid",
    "selfbalance", "basefee", "blobhash", "blobbasefee",
    "stop", "jump", "jumpi", "pc", "gas", "jumpdest",
    "sload", "sstore", "tload", "tstore",
    "pop"] ++ numbered "push" 0 32 ++ numbered "dup" 1 16 ++ numbered "swap" 1 16 ++
  ["mload", "mstore", "mstore8", "msize", "mcopy",
    "log0", "log1", "log2", "log3", "log4",
    "create", "call", "callcode", "return", "delegatecall", "create2", "staticcall", "revert",
    "selfdestruct"]

def isOpcode (text : String) : Bool := opcodes.contains text

end Reparse.Huff
