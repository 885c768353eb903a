import Mathlib.Data.Int.Notation
import Fantuan.Common

/-!
# easy_connection.cpp — receiving (Linux)

`EasyConnection::RecvData` as a function of what its calls of `recv` return.
-/

namespace Fantuan

/-- What a call of `recv` returns: between 1 and `MAXLINE` bytes, an error, or 0. -/
inductive RecvOutcome
  | bytes (data : List UInt8)
  | EAGAIN
  | EINTR
  | error
  | closed
deriving DecidableEq, Repr

/-- What `RecvData` did: the bytes received, each with the offset into `recv_context_->buffer_` they
were written to, the number of bytes counted, and whether they go to `OnData`.  If not, `Disconnect`
is called. -/
structure RecvResult where
  writes : List (ℤ × List UInt8)
  len_ : ℕ
  bReadOK : Bool
deriving DecidableEq, Repr

namespace EasyConnection

/-- The loop of `RecvData`; it has no result while another call of `recv` is to come. -/
def recvLoop (recvNum : ℤ) (r : RecvResult) : List RecvOutcome → Option RecvResult
  | [] => none
  | .bytes data :: later =>
      let r := { r with writes := r.writes ++ [(recvNum, data)], len_ := r.len_ + data.length }
      -- the next bytes go where the last call ended, counted from the start of the buffer
      if data.length = MAXLINE then recvLoop data.length r later
      else some { r with bReadOK := true }
  | .EAGAIN :: _ => some { r with bReadOK := true }
  | .EINTR :: later => recvLoop (-1) r later
  | .error :: _ => some r
  | .closed :: _ => some r

def RecvData (outcomes : List RecvOutcome) : Option RecvResult :=
  recvLoop 0 ⟨[], 0, false⟩ outcomes

end EasyConnection

end Fantuan
