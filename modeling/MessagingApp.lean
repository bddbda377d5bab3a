import MessagingApp.NoTrap
import MessagingApp.MembersScreen
import MessagingApp.Transcript
import MessagingApp.Outcomes
import MessagingApp.ConcurrentEdits
import MessagingApp.MessageCallbacks
import MessagingApp.DisplayNames
import MessagingApp.Posting
import MessagingApp.Registration
import MessagingApp.AddingAgain
import MessagingApp.ListenerCount
import MessagingApp.AddUserScreen
import MessagingApp.Delivery
import MessagingApp.ChatHistories
import MessagingApp.ShownMessages
import MessagingApp.CatchingUp
import MessagingApp.LoadedScreens
import MessagingApp.SentMessages
import MessagingApp.BarColours
