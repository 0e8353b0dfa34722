import KetSim.Channel
import KetSim.Error.Message
/-!
# Texts of channels

What a channel shows, in one word and what belongs to it.
-/
namespace KetSim

def Status.text : Status Float → String
  | pending => "Pending"
  | ready backend => "Ready(" ++ backend.name ++ ")"
  | failed reason => "Failed(" ++ reason.text ++ ")"

end KetSim
