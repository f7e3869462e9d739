import Onyx.Ext2.File

-- The calls of the ext2 driver. They take the time from the clock.

open Lib

namespace Ext2

inductive Call
  | writeAt (now : DateTime) (path : Text) (off : Nat) (buf : Bytes)
  | readAt (path : Text) (off len : Nat)
  | mkdir (now : DateTime) (path : Text)
  | list (path : Text)
  | stat (path : Text)
  | unlink (path : Text)
  | rename (src dst : Text)

inductive Reply
  | done
  | written (n : Nat)
  | bytes (b : Bytes)
  | entries (es : List DirEntry)
  | info (st : FileStat)
  deriving DecidableEq

def exec : Call → Ext2M Reply
  | .writeAt now path off buf => do return .written (← writeAt now path off buf)
  | .readAt path off len => do return .bytes (← Prog.read (·.readAt path off len))
  | .mkdir now path => do mkdir now path; return .done
  | .list path => do return .entries (← Prog.read (·.listPath path))
  | .stat path => do return .info (← Prog.read (·.stat path))
  | .unlink path => do unlink path; return .done
  | .rename src dst => do rename src dst; return .done

end Ext2
